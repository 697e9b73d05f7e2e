import Wardex.Incidents.Incident
import Wardex.Lib.Clustering

/-! What one clustering does to the store of incidents: one group of events after the other is
placed, in an incident that covers it or in a new one. -/

namespace Wardex.Incidents

open Wardex.Lib Wardex.Enrollment Wardex.Events

/-! ## Incidents that grow -/

/-- The incident has the same status and the same events, and perhaps some more, each once. -/
structure Incident.Grows (inc inc' : Incident) : Prop where
  status : inc'.status = inc.status
  added : ∃ extra : List UInt64, inc'.eventIds = inc.eventIds ++ extra ∧
    (∀ id ∈ extra, id ∉ inc.eventIds) ∧ extra.Nodup
  frozen : inc.isActive = false → inc'.eventIds = inc.eventIds

namespace Incident

variable {inc inc' inc'' : Incident} {ids : List UInt64} {now : String}

theorem Grows.refl (inc : Incident) : inc.Grows inc :=
  ⟨rfl, ⟨[], (List.append_nil _).symm, fun _ h => absurd h List.not_mem_nil, List.nodup_nil⟩,
    fun _ => rfl⟩

theorem Grows.isActive (h : inc.Grows inc') : inc'.isActive = inc.isActive := by
  rw [Incident.isActive, Incident.isActive, h.status]

theorem Grows.subset (h : inc.Grows inc') : inc.eventIds ⊆ inc'.eventIds := by
  obtain ⟨extra, heq, -, -⟩ := h.added
  rw [heq]
  exact List.subset_append_left _ _

theorem Grows.nodup (h : inc.Grows inc') (hnodup : inc.eventIds.Nodup) : inc'.eventIds.Nodup := by
  obtain ⟨extra, heq, hnew, hextra⟩ := h.added
  rw [heq]
  exact hnodup.append hextra fun id hid hmem => hnew id hmem hid

theorem Grows.length_le (h : inc.Grows inc') : inc.eventIds.length ≤ inc'.eventIds.length := by
  obtain ⟨extra, heq, -, -⟩ := h.added
  rw [heq, List.length_append]
  exact Nat.le_add_right _ _

theorem Grows.trans (h : inc.Grows inc') (h' : inc'.Grows inc'') : inc.Grows inc'' := by
  refine ⟨h'.status.trans h.status, ?_, fun hfrozen => ?_⟩
  · obtain ⟨extra, heq, hnew, hextra⟩ := h.added
    obtain ⟨extra', heq', hnew', hextra'⟩ := h'.added
    refine ⟨extra ++ extra', by rw [heq', heq, List.append_assoc], fun id hid => ?_, ?_⟩
    · rcases List.mem_append.mp hid with hid | hid
      · exact hnew id hid
      · exact fun hmem => hnew' id hid (h.subset hmem)
    · refine hextra.append hextra' fun id hid hid' => hnew' id hid' ?_
      rw [heq]
      exact List.mem_append_right _ hid
  · exact (h'.frozen (h.isActive.trans hfrozen)).trans (h.frozen hfrozen)

/-- An incident that has not got another event has the same list of them. -/
theorem Grows.eventIds_eq (h : inc.Grows inc') (hsub : inc'.eventIds ⊆ inc.eventIds) :
    inc'.eventIds = inc.eventIds := by
  obtain ⟨extra, heq, hnew, -⟩ := h.added
  have hnone : extra = [] := List.eq_nil_iff_forall_not_mem.mpr fun id hid =>
    hnew id hid (hsub (heq ▸ List.mem_append_right _ hid))
  rw [heq, hnone, List.append_nil]

theorem covers_iff : inc.covers ids = true ↔
    inc.isActive = true ∧ Meets {id | id ∈ inc.eventIds} {id | id ∈ ids} := by
  rw [covers, Bool.and_eq_true, List.any_eq_true]
  refine and_congr_right fun _ => ⟨?_, ?_⟩
  · rintro ⟨id, hid, hmem⟩
    exact ⟨id, of_decide_eq_true hmem, hid⟩
  · rintro ⟨id, hmem, hid⟩
    exact ⟨id, hid, decide_eq_true hmem⟩

theorem Grows.covers (h : inc.Grows inc') (hcovers : inc.covers ids = true) :
    inc'.covers ids = true := by
  obtain ⟨hactive, hmeets⟩ := covers_iff.mp hcovers
  exact covers_iff.mpr
    ⟨h.isActive.trans hactive, hmeets.mono (fun _ hid => h.subset hid) subset_rfl⟩

/-- The loop of a merge adds those of the ids that are not there, each once. -/
theorem exists_foldl_push (ids known : List UInt64) :
    ∃ extra : List UInt64,
      ids.foldl (fun ids id => if id ∈ ids then ids else ids ++ [id]) known = known ++ extra ∧
        (∀ id ∈ extra, id ∉ known) ∧ extra.Nodup ∧
          ∀ id, id ∈ known ++ extra ↔ id ∈ known ∨ id ∈ ids := by
  induction ids generalizing known with
  | nil => exact ⟨[], by simp, by simp, List.nodup_nil, by simp⟩
  | cons next ids ih =>
    rw [List.foldl_cons]
    split_ifs with hnext
    · obtain ⟨extra, heq, hnew, hnodup, hmem⟩ := ih known
      refine ⟨extra, heq, hnew, hnodup, fun id => (hmem id).trans ?_⟩
      rw [List.mem_cons]
      exact ⟨fun h => h.imp_right .inr, fun h => h.elim .inl fun h =>
        h.elim (fun heq => .inl (heq ▸ hnext)) .inr⟩
    · obtain ⟨extra, heq, hnew, hnodup, hmem⟩ := ih (known ++ [next])
      have hfresh (id : UInt64) (hid : id ∈ extra) : id ∉ known ∧ id ≠ next := by
        have hboth := hnew id hid
        rw [List.mem_append, not_or, List.mem_singleton] at hboth
        exact hboth
      refine ⟨next :: extra, by rw [heq, List.append_assoc]; rfl, ?_, ?_, fun id => ?_⟩
      · exact List.forall_mem_cons.mpr ⟨hnext, fun id hid => (hfresh id hid).1⟩
      · exact List.nodup_cons.mpr ⟨fun hid => (hfresh next hid).2 rfl, hnodup⟩
      · have hid := hmem id
        rw [List.append_assoc, List.singleton_append] at hid
        rw [hid, List.mem_append, List.mem_singleton, List.mem_cons, or_assoc]

theorem mem_eventIds_merge {id : UInt64} :
    id ∈ (inc.merge ids now).eventIds ↔ id ∈ inc.eventIds ∨ id ∈ ids := by
  obtain ⟨extra, heq, -, -, hmem⟩ := exists_foldl_push ids inc.eventIds
  rw [merge, heq]
  exact hmem id

theorem grows_merge (hactive : inc.isActive = true) : inc.Grows (inc.merge ids now) := by
  obtain ⟨extra, heq, hnew, hnodup, -⟩ := exists_foldl_push ids inc.eventIds
  exact ⟨rfl, ⟨extra, heq, hnew, hnodup⟩, fun hfrozen => absurd hactive (by simp [hfrozen])⟩

end Incident

/-! ## One group -/

/-- A group of events is placed in the store. -/
inductive Place (ids : List UInt64) (store : IncidentStore) : IncidentStore → Prop
  | merged (now : String) (hcovered : store.isCovered ids = true) :
      Place ids store (store.mergeInto ids now)
  | created (inc : Incident) (nextId : UInt64) (hfree : store.isCovered ids = false)
      (hactive : inc.isActive = true) (hids : inc.eventIds = ids) :
      Place ids store ⟨store.incidents ++ [inc], nextId⟩

/-- The events of the incidents that are worked on. -/
def seats (incidents : List Incident) (i : ℕ) : Set UInt64 :=
  {id | ∃ inc, incidents[i]? = some inc ∧ inc.isActive = true ∧ id ∈ inc.eventIds}

/-- The events of the first `n` incidents, and of those made after them. -/
def clustersAt (n : ℕ) (store : IncidentStore) : Clusters UInt64 where
  old := seats (store.incidents.take n)
  new := (store.incidents.drop n).map fun inc => {id | id ∈ inc.eventIds}

variable {n : ℕ} {store store' : IncidentStore} {incidents : List Incident} {ids : List UInt64}

theorem meets_seats_iff {G : Set UInt64} {i : ℕ} : Meets (seats incidents i) G ↔
    ∃ inc, incidents[i]? = some inc ∧ inc.isActive = true ∧
      Meets {id | id ∈ inc.eventIds} G := by
  constructor
  · rintro ⟨id, ⟨inc, hget, hactive, hmem⟩, hid⟩
    exact ⟨inc, hget, hactive, id, hmem, hid⟩
  · rintro ⟨inc, hget, hactive, id, hmem, hid⟩
    exact ⟨id, ⟨inc, hget, hactive, hmem⟩, hid⟩

theorem meets_seats_iff_covers {i : ℕ} : Meets (seats incidents i) {id | id ∈ ids} ↔
    ∃ inc, incidents[i]? = some inc ∧ inc.covers ids = true := by
  rw [meets_seats_iff]
  exact exists_congr fun inc => and_congr_right fun _ => Incident.covers_iff.symm

theorem free_seats_iff :
    Free (seats incidents) {id | id ∈ ids} ↔ incidents.any (Incident.covers ids) = false := by
  rw [List.any_eq_false]
  constructor
  · intro hfree inc hinc hcovers
    obtain ⟨i, hget⟩ := List.mem_iff_getElem?.mp hinc
    exact hfree i (meets_seats_iff_covers.mpr ⟨inc, hget, hcovers⟩)
  · intro hnone i hmeets
    obtain ⟨inc, hget, hcovers⟩ := meets_seats_iff_covers.mp hmeets
    exact hnone inc (List.mem_of_getElem? hget) hcovers

theorem clustersAt_append {first later : List Incident} (h : store.incidents = first ++ later)
    (hlength : first.length = n) :
    clustersAt n store = ⟨seats first, later.map fun inc => {id | id ∈ inc.eventIds}⟩ := by
  rw [clustersAt, h, List.take_left' hlength, List.drop_left' hlength]

theorem seats_set {i : ℕ} {inc : Incident} {now : String} (hget : incidents[i]? = some inc)
    (hactive : inc.isActive = true) :
    seats (incidents.set i (inc.merge ids now)) = grow (seats incidents) i {id | id ∈ ids} := by
  have hi : i < incidents.length := (List.getElem?_eq_some_iff.mp hget).1
  funext j
  ext id
  by_cases hj : j = i
  · subst hj
    rw [grow, Function.update_self]
    constructor
    · rintro ⟨inc', hget', -, hmem⟩
      rw [List.getElem?_set_self hi] at hget'
      obtain rfl := Option.some.inj hget'
      refine (Incident.mem_eventIds_merge.mp hmem).imp_left fun hmem => ?_
      exact ⟨inc, hget, hactive, hmem⟩
    · intro hid
      refine ⟨inc.merge ids now, List.getElem?_set_self hi, hactive,
        Incident.mem_eventIds_merge.mpr (hid.imp_left ?_)⟩
      rintro ⟨inc', hget', -, hmem⟩
      obtain rfl := Option.some.inj (hget.symm.trans hget')
      exact hmem
  · rw [grow, Function.update_of_ne hj]
    simp only [seats, List.getElem?_set_ne (Ne.symm hj)]

/-- The first of the later incidents that covers the group is where the group settles. -/
theorem map_updateFirst_covers {later : List Incident} {now : String}
    (hactive : ∀ inc ∈ later, inc.isActive = true)
    (hany : later.any (Incident.covers ids) = true) :
    ((updateFirst (Incident.covers ids) (Incident.merge ids now) later).map fun inc =>
      {id | id ∈ inc.eventIds}) =
        settle (later.map fun inc => {id | id ∈ inc.eventIds}) {id | id ∈ ids} := by
  induction later with
  | nil => exact absurd hany (by simp)
  | cons inc later ih =>
    obtain ⟨hinc, hlater⟩ := List.forall_mem_cons.mp hactive
    rw [updateFirst, List.map_cons, settle]
    by_cases hcovers : inc.covers ids = true
    · rw [if_pos hcovers, if_pos (Incident.covers_iff.mp hcovers).2, List.map_cons]
      refine congrArg (· :: _) (Set.ext fun id => ?_)
      exact Incident.mem_eventIds_merge
    · rw [List.any_cons, Bool.eq_false_iff.mpr hcovers, Bool.false_or] at hany
      rw [if_neg hcovers, if_neg fun hmeets => hcovers (Incident.covers_iff.mpr ⟨hinc, hmeets⟩),
        List.map_cons, ih hlater hany]

theorem settle_map_of_any_eq_false {later : List Incident}
    (hactive : ∀ inc ∈ later, inc.isActive = true)
    (hnone : later.any (Incident.covers ids) = false) :
    settle (later.map fun inc => {id | id ∈ inc.eventIds}) {id | id ∈ ids} =
      (later.map fun inc => {id | id ∈ inc.eventIds}) ++ [{id | id ∈ ids}] := by
  induction later with
  | nil => rfl
  | cons inc later ih =>
    obtain ⟨hinc, hlater⟩ := List.forall_mem_cons.mp hactive
    obtain ⟨hcovers, hnone⟩ := Bool.or_eq_false_iff.mp (List.any_cons.symm.trans hnone)
    rw [List.map_cons, settle, if_neg, ih hlater hnone, List.cons_append]
    exact fun hmeets => Bool.eq_false_iff.mp hcovers (Incident.covers_iff.mpr ⟨hinc, hmeets⟩)

/-- A group that an older incident covers goes to the first such, which is its home. -/
theorem join_of_any_first {first : List Incident} {new : List (Set UInt64)} (now : String)
    (hany : first.any (Incident.covers ids) = true) :
    Clusters.join ⟨seats first, new⟩ {id | id ∈ ids} =
      ⟨seats (updateFirst (Incident.covers ids) (Incident.merge ids now) first), new⟩ := by
  obtain ⟨i, inc, hget, hcovers, hbefore, hset⟩ :=
    exists_updateFirst_eq_set (f := Incident.merge ids now) hany
  have hhome : Home (seats first) {id | id ∈ ids} i := by
    refine ⟨meets_seats_iff_covers.mpr ⟨inc, hget, hcovers⟩, fun j hj hmeets => ?_⟩
    obtain ⟨inc', hget', hcovers'⟩ := meets_seats_iff_covers.mp hmeets
    exact Bool.eq_false_iff.mp (hbefore j hj inc' hget') hcovers'
  rw [Clusters.join_of_home hhome, hset, seats_set hget (Incident.covers_iff.mp hcovers).1]

/-- The placing of a group is the step of greedy clustering. -/
theorem Place.clustersAt (h : Place ids store store') (hn : n ≤ store.incidents.length)
    (hactive : ∀ inc ∈ store.incidents.drop n, inc.isActive = true) :
    clustersAt n store' = (clustersAt n store).join {id | id ∈ ids} := by
  obtain ⟨first, later, hsplit, hlength⟩ : ∃ first later : List Incident,
      store.incidents = first ++ later ∧ first.length = n :=
    ⟨store.incidents.take n, store.incidents.drop n, (List.take_append_drop n _).symm,
      List.length_take_of_le hn⟩
  rw [hsplit, List.drop_left' hlength] at hactive
  rw [clustersAt_append hsplit hlength]
  cases h with
  | merged now hcovered =>
    rw [IncidentStore.isCovered, hsplit, List.any_append, Bool.or_eq_true] at hcovered
    cases hfirst : first.any (Incident.covers ids) with
    | true =>
      have hmerged : (store.mergeInto ids now).incidents =
          updateFirst (Incident.covers ids) (Incident.merge ids now) first ++ later := by
        rw [IncidentStore.mergeInto, hsplit, updateFirst_append_of_any hfirst]
      rw [join_of_any_first now hfirst, clustersAt_append hmerged]
      rw [length_updateFirst, hlength]
    | false =>
      have hlater : later.any (Incident.covers ids) = true := by
        rw [hfirst] at hcovered
        exact hcovered.resolve_left Bool.false_ne_true
      have hnone : first.find? (Incident.covers ids) = none :=
        List.find?_eq_none.mpr (List.any_eq_false.mp hfirst)
      have hmerged : (store.mergeInto ids now).incidents =
          first ++ updateFirst (Incident.covers ids) (Incident.merge ids now) later := by
        rw [IncidentStore.mergeInto, hsplit, updateFirst_append hnone]
      rw [Clusters.join_of_free (free_seats_iff.mpr hfirst), clustersAt_append hmerged hlength,
        map_updateFirst_covers hactive hlater]
  | created inc nextId hfree hopen hids =>
    rw [IncidentStore.isCovered, hsplit, List.any_append, Bool.or_eq_false_iff] at hfree
    have hcreated : store.incidents ++ [inc] = first ++ (later ++ [inc]) := by
      rw [hsplit, List.append_assoc]
    rw [Clusters.join_of_free (free_seats_iff.mpr hfree.1), clustersAt_append hcreated hlength,
      settle_map_of_any_eq_false hactive hfree.2, List.map_append, List.map_singleton, hids]

theorem Place.exists_grows (h : Place ids store store') {i : ℕ} {inc : Incident}
    (hget : store.incidents[i]? = some inc) :
    ∃ inc', store'.incidents[i]? = some inc' ∧ inc.Grows inc' := by
  cases h with
  | merged now hcovered =>
    obtain ⟨j, inc', hget', hcovers, -, hset⟩ :=
      exists_updateFirst_eq_set (f := Incident.merge ids now) hcovered
    rw [IncidentStore.mergeInto, hset]
    by_cases hj : j = i
    · subst hj
      obtain rfl := Option.some.inj (hget.symm.trans hget')
      exact ⟨_, List.getElem?_set_self (List.getElem?_eq_some_iff.mp hget).1,
        Incident.grows_merge (Incident.covers_iff.mp hcovers).1⟩
    · exact ⟨inc, (List.getElem?_set_ne hj).trans hget, Incident.Grows.refl inc⟩
  | created inc' nextId =>
    refine ⟨inc, ?_, Incident.Grows.refl inc⟩
    rw [List.getElem?_append_left (List.getElem?_eq_some_iff.mp hget).1, hget]

/-- An incident after a group has been placed was there, or it is made of the group. -/
theorem Place.grows_or_eq (h : Place ids store store') {i : ℕ} {inc' : Incident}
    (hget : store'.incidents[i]? = some inc') :
    (∃ inc, store.incidents[i]? = some inc ∧ inc.Grows inc') ∨
      store.isCovered ids = false ∧ inc'.eventIds = ids ∧ inc'.isActive = true := by
  by_cases hi : i < store.incidents.length
  · have hget' := List.getElem?_eq_getElem hi
    obtain ⟨inc'', hsome, hgrows⟩ := h.exists_grows hget'
    obtain rfl := Option.some.inj (hsome.symm.trans hget)
    exact .inl ⟨_, hget', hgrows⟩
  · cases h with
    | merged now hcovered =>
      rw [IncidentStore.mergeInto] at hget
      have hlt := (List.getElem?_eq_some_iff.mp hget).1
      rw [length_updateFirst] at hlt
      exact absurd hlt hi
    | created inc nextId hfree hactive hids =>
      rw [List.getElem?_append_right (Nat.le_of_not_lt hi)] at hget
      obtain rfl := List.mem_singleton.mp (List.mem_of_getElem? hget)
      exact .inr ⟨hfree, hids, hactive⟩

/-! ## All groups -/

/-- Groups of events are placed one after the other. -/
inductive PlaceAll : List (List UInt64) → IncidentStore → IncidentStore → Prop
  | nil (store : IncidentStore) : PlaceAll [] store store
  | cons {ids : List UInt64} {gs : List (List UInt64)} {store between store' : IncidentStore}
      (first : Place ids store between) (rest : PlaceAll gs between store') :
      PlaceAll (ids :: gs) store store'

variable {gs hs : List (List UInt64)} {between : IncidentStore}

theorem PlaceAll.append (h : PlaceAll gs store between) (h' : PlaceAll hs between store') :
    PlaceAll (gs ++ hs) store store' := by
  induction h with
  | nil => exact h'
  | cons first rest ih => exact .cons first (ih h')

theorem PlaceAll.exists_grows (h : PlaceAll gs store store') {i : ℕ} {inc : Incident}
    (hget : store.incidents[i]? = some inc) :
    ∃ inc', store'.incidents[i]? = some inc' ∧ inc.Grows inc' := by
  induction h generalizing inc with
  | nil => exact ⟨inc, hget, Incident.Grows.refl inc⟩
  | cons first rest ih =>
    obtain ⟨inc', hget', hgrows⟩ := first.exists_grows hget
    obtain ⟨inc'', hget'', hgrows'⟩ := ih hget'
    exact ⟨inc'', hget'', hgrows.trans hgrows'⟩

theorem PlaceAll.length_le (h : PlaceAll gs store store') :
    store.incidents.length ≤ store'.incidents.length := by
  by_contra hlt
  have hi : store'.incidents.length < store.incidents.length := Nat.lt_of_not_le hlt
  obtain ⟨inc, hget, -⟩ := h.exists_grows (List.getElem?_eq_getElem hi)
  exact absurd (List.getElem?_eq_some_iff.mp hget).1 (Nat.lt_irrefl _)

/-- What was covered stays covered. -/
theorem Place.isCovered (h : Place ids store store') {other : List UInt64}
    (hcovered : store.isCovered other = true) : store'.isCovered other = true := by
  obtain ⟨inc, hinc, hcovers⟩ := List.any_eq_true.mp hcovered
  obtain ⟨i, hget⟩ := List.mem_iff_getElem?.mp hinc
  obtain ⟨inc', hget', hgrows⟩ := h.exists_grows hget
  exact List.any_eq_true.mpr ⟨inc', List.mem_of_getElem? hget', hgrows.covers hcovers⟩

/-- An incident after all groups was there, or it is made of a group that no incident covered. -/
theorem PlaceAll.grows_or_made (h : PlaceAll gs store store') {i : ℕ} {inc' : Incident}
    (hget : store'.incidents[i]? = some inc') :
    (∃ inc, store.incidents[i]? = some inc ∧ inc.Grows inc') ∨
      ∃ ids ∈ gs, store.isCovered ids = false ∧
        ∃ inc : Incident, inc.eventIds = ids ∧ inc.isActive = true ∧ inc.Grows inc' := by
  induction h with
  | nil => exact .inl ⟨inc', hget, Incident.Grows.refl inc'⟩
  | @cons ids gs store between store' first rest ih =>
    rcases ih hget with ⟨inc, hbetween, hgrows⟩ | ⟨other, hother, hfree, hmade⟩
    · rcases first.grows_or_eq hbetween with ⟨inc'', hget'', hgrows'⟩ | ⟨hfree, hids, hactive⟩
      · exact .inl ⟨inc'', hget'', hgrows'.trans hgrows⟩
      · exact .inr ⟨ids, List.mem_cons_self, hfree, inc, hids, hactive, hgrows⟩
    · refine .inr ⟨other, List.mem_cons_of_mem ids hother, ?_, hmade⟩
      exact Bool.eq_false_iff.mpr fun hcovered =>
        Bool.eq_false_iff.mp hfree (first.isCovered hcovered)

/-- The incidents made after the first `n` are worked on. -/
def Fresh (n : ℕ) (store : IncidentStore) : Prop :=
  n ≤ store.incidents.length ∧ ∀ inc ∈ store.incidents.drop n, inc.isActive = true

theorem fresh_length (store : IncidentStore) : Fresh store.incidents.length store :=
  ⟨le_rfl, by simp⟩

theorem Place.fresh (h : Place ids store store') (hfresh : Fresh n store) : Fresh n store' := by
  have hlength : store.incidents.length ≤ store'.incidents.length :=
    (PlaceAll.cons h (.nil store')).length_le
  refine ⟨hfresh.1.trans hlength, fun inc hinc => ?_⟩
  obtain ⟨i, hget⟩ := List.mem_iff_getElem?.mp hinc
  rw [List.getElem?_drop] at hget
  rcases h.grows_or_eq hget with ⟨inc', hget', hgrows⟩ | ⟨-, -, hactive⟩
  · rw [hgrows.isActive]
    refine hfresh.2 inc' (List.mem_of_getElem? (i := i) ?_)
    rw [List.getElem?_drop, hget']
  · exact hactive

/-- The placing of all groups is a run of greedy clustering. -/
theorem PlaceAll.clustersAt (h : PlaceAll gs store store') (hfresh : Fresh n store) :
    Fresh n store' ∧ clustersAt n store' =
      (clustersAt n store).run (gs.map fun ids => {id | id ∈ ids}) := by
  induction h with
  | nil => exact ⟨hfresh, rfl⟩
  | cons first rest ih =>
    obtain ⟨hfresh', heq⟩ := ih (first.fresh hfresh)
    refine ⟨hfresh', ?_⟩
    rw [heq, first.clustersAt hfresh.1 hfresh.2, List.map_cons, Clusters.run, Clusters.run,
      List.foldl_cons]

/-! ## The groups of a call -/

variable {S A : Type} (chrono : Chrono)

def eligible (limit : Int) (entry : String × List (StoredEvent S A)) : Bool :=
  (clusterSpan chrono limit entry.2).isSome

def groupIds (entry : String × List (StoredEvent S A)) : List UInt64 :=
  entry.2.map StoredEvent.id

/-- The technique groups that are placed, in the order in which they are. -/
def techniqueGroups (o : IterationOrder String) (events : List (StoredEvent S A)) :
    List (List UInt64) :=
  ((groups o (techniqueEntries events)).filter (eligible chrono 300)).map groupIds

def burstGroups (o : IterationOrder String) (events : List (StoredEvent S A)) :
    List (List UInt64) :=
  ((groups o (severeEntries events)).filter (eligible chrono 120)).map groupIds

variable {chrono} {limit : Int} {entry : String × List (StoredEvent S A)}

theorem two_le_length_of_eligible (h : eligible chrono limit entry = true) :
    2 ≤ (groupIds entry).length := by
  rw [groupIds, List.length_map]
  by_contra hlt
  rw [eligible, clusterSpan, if_pos (Nat.lt_of_not_le hlt)] at h
  exact Bool.false_ne_true h

theorem place_clusterTechnique (orders : HashOrders) (now : String)
    (h : eligible chrono 300 entry = true) :
    Place (groupIds entry) store (clusterTechnique chrono orders now store entry).1 := by
  obtain ⟨span, hspan⟩ := Option.isSome_iff_exists.mp h
  rw [clusterTechnique, hspan]
  dsimp only
  split_ifs with hcovered
  · exact .merged now hcovered
  · exact .created _ _ (Bool.eq_false_iff.mpr hcovered) rfl rfl

theorem clusterTechnique_of_not_eligible (orders : HashOrders) (now : String)
    (h : eligible chrono 300 entry = false) :
    (clusterTechnique chrono orders now store entry).1 = store := by
  rw [clusterTechnique, Option.not_isSome_iff_eq_none.mp (Bool.eq_false_iff.mp h)]

theorem place_clusterBurst (now : String) (h : eligible chrono 120 entry = true) :
    Place (groupIds entry) store (clusterBurst chrono now store entry).1 := by
  obtain ⟨span, hspan⟩ := Option.isSome_iff_exists.mp h
  rw [clusterBurst, hspan]
  dsimp only
  split_ifs with hcovered
  · exact .merged now hcovered
  · exact .created _ _ (Bool.eq_false_iff.mpr hcovered) rfl rfl

theorem clusterBurst_of_not_eligible (now : String) (h : eligible chrono 120 entry = false) :
    (clusterBurst chrono now store entry).1 = store := by
  rw [clusterBurst, Option.not_isSome_iff_eq_none.mp (Bool.eq_false_iff.mp h)]

theorem placeAll_clusterGroups {cluster : IncidentStore → String × List (StoredEvent S A) →
      IncidentStore × List UInt64} {p : String × List (StoredEvent S A) → Bool}
    (hplace : ∀ store entry, p entry = true → Place (groupIds entry) store (cluster store entry).1)
    (hskip : ∀ store entry, p entry = false → (cluster store entry).1 = store)
    (store : IncidentStore) (entries : List (String × List (StoredEvent S A))) :
    PlaceAll ((entries.filter p).map groupIds) store (clusterGroups cluster store entries).1 := by
  induction entries generalizing store with
  | nil => exact .nil store
  | cons entry entries ih =>
    rw [clusterGroups]
    cases hp : p entry with
    | true =>
      rw [List.filter_cons_of_pos hp]
      exact .cons (hplace store entry hp) (ih _)
    | false =>
      rw [List.filter_cons_of_neg (Bool.eq_false_iff.mp hp), hskip store entry hp]
      exact ih store

/-- A call places its technique groups and then its bursts. -/
theorem placeAll_autoCluster (chrono : Chrono) (orders : HashOrders) (store : IncidentStore)
    (events : List (StoredEvent S A)) (now : Int) :
    PlaceAll (techniqueGroups chrono orders.technique events ++
      burstGroups chrono orders.agent events) store
      (autoCluster chrono orders store events now).1 := by
  have hplaced : PlaceAll (techniqueGroups chrono orders.technique events ++
      burstGroups chrono orders.agent events) store
      (clusterGroups (clusterBurst chrono (chrono.format now))
        (clusterGroups (clusterTechnique chrono orders (chrono.format now)) store
          (groups orders.technique (techniqueEntries events))).1
        (groups orders.agent (severeEntries events))).1 :=
    .append
      (placeAll_clusterGroups
        (fun _ _ => place_clusterTechnique orders (chrono.format now))
        (fun _ _ => clusterTechnique_of_not_eligible orders (chrono.format now)) store _)
      (placeAll_clusterGroups (fun _ _ => place_clusterBurst (chrono.format now))
        (fun _ _ => clusterBurst_of_not_eligible (chrono.format now)) _ _)
  cases events with
  | nil => 
    have hnone {κ : Type} [DecidableEq κ] (o : IterationOrder κ) :
        groups o ([] : List (κ × StoredEvent S A)) = [] := 
      List.map_eq_nil_iff.mpr (o.perm _).eq_nil
    rw [techniqueGroups, burstGroups, techniqueEntries, severeEntries, List.filter_nil,
      List.flatMap_nil, List.map_nil, hnone, hnone]
    exact .nil store
  | cons event events => exact hplaced

end Wardex.Incidents
