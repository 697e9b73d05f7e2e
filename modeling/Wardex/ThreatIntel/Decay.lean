import Wardex.ThreatIntel.Store
import Mathlib.Algebra.Order.Group.Unbundled.Abs

/-! The decay of confidences.  The pass sorts the indicators into those that are written back and
those that are to be removed, and leaves the removal to `purge_expired`, which goes by age only. -/

namespace Wardex.ThreatIntel

open Wardex.Lib Wardex.Enrollment

/-- A number that is not finite never passes `validate`, and is none of these. -/
structure DecayConfig where
  halfLifeDays : ℚ
  minConfidence : ℚ
  maxAgeDays : ℕ
  enabled : Bool

def DecayConfig.default : DecayConfig where
  halfLifeDays := 30
  minConfidence := 1 / 10
  maxAgeDays := 365
  enabled := true

/-- The field that is refused, with what it was. -/
inductive InvalidDecayConfig where
  | halfLifeDays (got : ℚ)
  | minConfidence (got : ℚ)
deriving DecidableEq

def DecayConfig.validate (config : DecayConfig) : Except InvalidDecayConfig Unit :=
  if config.halfLifeDays ≤ 0 then .error (.halfLifeDays config.halfLifeDays)
  else if config.minConfidence < 0 ∨ 1 < config.minConfidence then
    .error (.minConfidence config.minConfidence)
  else .ok ()

theorem DecayConfig.validate_default : DecayConfig.default.validate = .ok () := by
  decide +kernel

theorem DecayConfig.minConfidence_nonneg {config : DecayConfig} (h : config.validate = .ok ()) :
    0 ≤ config.minConfidence := by
  unfold DecayConfig.validate at h
  split_ifs at h with hhalf hmin
  exact not_lt.mp fun hneg => hmin (.inl hneg)

structure DecayResult where
  iocsProcessed : ℕ
  iocsDecayed : ℕ
  iocsRemoved : ℕ
  avgConfidenceBefore : ℚ
  avgConfidenceAfter : ℚ
  timestamp : String

/-- What the loop of `apply_decay` collects. -/
structure DecayPass where
  decayedCount : ℕ
  updatedIocs : List IoC
  toRemove : List String

def DecayPass.start : DecayPass := ⟨0, [], []⟩

/-- Whole seconds, none for an indicator that is seen in the future. -/
def ageSecs (now lastSeen : ℤ) : ℕ := ((now - lastSeen).tdiv 1000000000).toNat

def averageConfidence (iocs : List IoC) : ℚ :=
  if iocs.length > 0 then (iocs.map IoC.confidence).sum / iocs.length else 0

section

variable (chrono : Chrono) (decayFactor : ℚ → ℕ → ℚ) (config : DecayConfig) (now : ℤ)

def decayOne (pass : DecayPass) (ioc : IoC) : DecayPass :=
  match chrono.parse ioc.lastSeen with
  | none => { pass with updatedIocs := pass.updatedIocs ++ [ioc] }
  | some lastSeen =>
    let age := ageSecs now lastSeen
    if config.maxAgeDays * 86400 < age then
      { pass with toRemove := pass.toRemove ++ [ioc.iocType.debug ++ ":" ++ ioc.value] }
    else
      let newConfidence := ioc.confidence * decayFactor config.halfLifeDays age
      if newConfidence < config.minConfidence then
        { pass with toRemove := pass.toRemove ++ [ioc.iocType.debug ++ ":" ++ ioc.value] }
      else if 1 / 1000 < |newConfidence - ioc.confidence| then
        { pass with
          updatedIocs := pass.updatedIocs ++ [{ ioc with confidence := newConfidence }]
          decayedCount := pass.decayedCount + 1 }
      else { pass with updatedIocs := pass.updatedIocs ++ [ioc] }

/-- The clock is read again at the end.  There is no result if `purge_expired` panics; what was
written back before stays. -/
def applyDecay (order : HashTable.IterationOrder String IoC) (store : ThreatIntelStore)
    (finished : ℤ) : ThreatIntelStore × Option DecayResult :=
  if config.enabled = false then (store, some ⟨0, 0, 0, 0, 0, chrono.format now⟩)
  else
    match config.validate with
    | .error _ => (store, some ⟨0, 0, 0, 0, 0, chrono.format now⟩)
    | .ok () =>
      let allIocs := store.allIocs order
      let pass := allIocs.foldl (decayOne chrono decayFactor config now) DecayPass.start
      let updated := pass.updatedIocs.foldl ThreatIntelStore.addIoc store
      let purged :=
        if pass.toRemove ≠ [] then
          (updated.purgeExpired chrono (chrono.format now) config.maxAgeDays).map Prod.fst
        else some updated
      match purged with
      | none => (updated, none)
      | some remaining =>
        (remaining, some {
          iocsProcessed := allIocs.length
          iocsDecayed := pass.decayedCount
          iocsRemoved := pass.toRemove.length
          avgConfidenceBefore := averageConfidence allIocs
          avgConfidenceAfter := averageConfidence (remaining.allIocs order)
          timestamp := chrono.format finished })

def previewDecay (ioc : IoC) : ℚ :=
  if config.enabled = false then ioc.confidence
  else
    match chrono.parse ioc.lastSeen with
    | none => ioc.confidence
    | some lastSeen =>
      max (ioc.confidence * decayFactor config.halfLifeDays (ageSecs now lastSeen)) 0

/-! ### What the loop makes of one indicator -/

/-- Too old in whole seconds, or fallen below the least confidence. -/
def Stale (ioc : IoC) : Prop :=
  ∃ lastSeen, chrono.parse ioc.lastSeen = some lastSeen ∧
    (config.maxAgeDays * 86400 < ageSecs now lastSeen ∨
      ioc.confidence * decayFactor config.halfLifeDays (ageSecs now lastSeen) <
        config.minConfidence)

/-- What is written back, if the indicator is not to be removed. -/
def outcome (ioc : IoC) : Option IoC :=
  match chrono.parse ioc.lastSeen with
  | none => some ioc
  | some lastSeen =>
    let newConfidence := ioc.confidence * decayFactor config.halfLifeDays (ageSecs now lastSeen)
    if config.maxAgeDays * 86400 < ageSecs now lastSeen ∨ newConfidence < config.minConfidence then
      none
    else if 1 / 1000 < |newConfidence - ioc.confidence| then
      some { ioc with confidence := newConfidence }
    else some ioc

/-- What is stored once the survivors are written back. -/
def decayed (ioc : IoC) : IoC := (outcome chrono decayFactor config now ioc).getD ioc

end

variable {chrono : Chrono} {decayFactor : ℚ → ℕ → ℚ} {config : DecayConfig} {now : ℤ} {ioc : IoC}

theorem outcome_eq_none_iff :
    outcome chrono decayFactor config now ioc = none ↔ Stale chrono decayFactor config now ioc := by
  unfold outcome Stale
  cases hparse : chrono.parse ioc.lastSeen with
  | none => simp
  | some lastSeen =>
    dsimp only
    split_ifs with hstale hfar
    · exact iff_of_true rfl ⟨lastSeen, rfl, hstale⟩
    · refine iff_of_false nofun ?_
      rintro ⟨seen, hseen, h⟩
      cases hseen
      exact hstale h
    · refine iff_of_false nofun ?_
      rintro ⟨seen, hseen, h⟩
      cases hseen
      exact hstale h

theorem outcome_eq_some {ioc' : IoC} (h : outcome chrono decayFactor config now ioc = some ioc') :
    ioc' = { ioc with confidence := ioc'.confidence } := by
  unfold outcome at h
  cases hparse : chrono.parse ioc.lastSeen with
  | none =>
    rw [hparse] at h
    cases h
    rfl
  | some lastSeen =>
    rw [hparse] at h
    dsimp only at h
    split_ifs at h with hstale hfar
    · cases h
      rfl
    · cases h
      rfl

theorem decayed_eq (ioc : IoC) : decayed chrono decayFactor config now ioc =
    { ioc with confidence := (decayed chrono decayFactor config now ioc).confidence } := by
  unfold decayed
  cases h : outcome chrono decayFactor config now ioc with
  | none => rfl
  | some ioc' => exact outcome_eq_some h

@[simp] theorem lastSeen_decayed (ioc : IoC) :
    (decayed chrono decayFactor config now ioc).lastSeen = ioc.lastSeen := by
  rw [decayed_eq]

theorem decayed_of_parse_none (h : chrono.parse ioc.lastSeen = none) :
    decayed chrono decayFactor config now ioc = ioc := by
  rw [decayed, outcome, h]
  rfl

/-! ### What the pass does to the store -/

theorem decayOne_cases (pass : DecayPass) (ioc : IoC) :
    (outcome chrono decayFactor config now ioc = none ∧
      decayOne chrono decayFactor config now pass ioc =
        { pass with toRemove := pass.toRemove ++ [ioc.iocType.debug ++ ":" ++ ioc.value] }) ∨
    ∃ ioc' decayedCount, outcome chrono decayFactor config now ioc = some ioc' ∧
      decayOne chrono decayFactor config now pass ioc =
        ⟨decayedCount, pass.updatedIocs ++ [ioc'], pass.toRemove⟩ := by
  unfold decayOne outcome
  cases hparse : chrono.parse ioc.lastSeen with
  | none => exact .inr ⟨ioc, pass.decayedCount, rfl, rfl⟩
  | some lastSeen =>
    dsimp only
    by_cases hold : config.maxAgeDays * 86400 < ageSecs now lastSeen
    · exact .inl ⟨if_pos (.inl hold), if_pos hold⟩
    · by_cases hlow : ioc.confidence * decayFactor config.halfLifeDays (ageSecs now lastSeen) <
          config.minConfidence
      · exact .inl ⟨if_pos (.inr hlow), (if_neg hold).trans (if_pos hlow)⟩
      · refine .inr ?_
        rw [if_neg hold, if_neg hlow, if_neg (not_or.mpr ⟨hold, hlow⟩)]
        split_ifs with hfar
        · exact ⟨_, _, rfl, rfl⟩
        · exact ⟨_, _, rfl, rfl⟩

theorem updatedIocs_foldl (iocs : List IoC) (pass : DecayPass) :
    (iocs.foldl (decayOne chrono decayFactor config now) pass).updatedIocs =
      pass.updatedIocs ++ iocs.filterMap (outcome chrono decayFactor config now) := by
  induction iocs generalizing pass with
  | nil => exact (List.append_nil _).symm
  | cons ioc iocs ih =>
    rw [List.foldl_cons, ih]
    obtain ⟨hnone, hone⟩ | ⟨ioc', count, hsome, hone⟩ := decayOne_cases pass ioc
    · rw [hone, List.filterMap_cons_none hnone]
    · rw [hone, List.filterMap_cons_some hsome, List.append_assoc, List.singleton_append]

theorem length_toRemove_foldl (iocs : List IoC) (pass : DecayPass) :
    (iocs.foldl (decayOne chrono decayFactor config now) pass).toRemove.length =
      pass.toRemove.length +
        iocs.countP fun ioc => (outcome chrono decayFactor config now ioc).isNone := by
  induction iocs generalizing pass with
  | nil => rfl
  | cons ioc iocs ih =>
    rw [List.foldl_cons, ih]
    obtain ⟨hnone, hone⟩ | ⟨ioc', count, hsome, hone⟩ := decayOne_cases pass ioc
    · rw [hone, List.countP_cons_of_pos (by rw [hnone]; rfl), List.length_append]
      exact Nat.add_right_comm _ _ _
    · rw [hone, List.countP_cons_of_neg (by rw [hsome]; exact Bool.false_ne_true)]

namespace ThreatIntelStore

theorem iocs_foldl_addIoc {iocs : List IoC} (h : ∀ ioc ∈ iocs, hydrateIocMetadata ioc = ioc)
    (store : ThreatIntelStore) :
    (iocs.foldl addIoc store).iocs = HashTable.insertAll iocKey store.iocs iocs := by
  induction iocs generalizing store with
  | nil => rfl
  | cons ioc iocs ih =>
    have hhead : (store.addIoc ioc).iocs = store.iocs.insert (iocKey ioc) ioc := by
      rw [addIoc, h ioc List.mem_cons_self]
    have hrest := ih (fun ioc hmem => h ioc (List.mem_cons_of_mem _ hmem)) (store.addIoc ioc)
    rw [hhead] at hrest
    exact hrest

end ThreatIntelStore

/-- Nothing that is stored is stale. -/
def NoneStale (chrono : Chrono) (decayFactor : ℚ → ℕ → ℚ) (config : DecayConfig) (now : ℤ)
    (store : ThreatIntelStore) : Prop :=
  ∀ k ioc, store.iocs.lookup k = some ioc → ¬Stale chrono decayFactor config now ioc

/-- The cutoff of `purge_expired`. -/
def cutoff (chrono : Chrono) (config : DecayConfig) (now : ℤ) : Option ℤ :=
  chrono.addSeconds now (-(toI64 config.maxAgeDays * 86400))

section

variable {order : HashTable.IterationOrder String IoC} {store : ThreatIntelStore} {finished : ℤ}

/-- The store when the survivors are written back and nothing is purged yet. -/
def written (chrono : Chrono) (decayFactor : ℚ → ℕ → ℚ) (config : DecayConfig) (now : ℤ)
    (order : HashTable.IterationOrder String IoC) (store : ThreatIntelStore) : ThreatIntelStore :=
  (((store.allIocs order).foldl (decayOne chrono decayFactor config now)
    DecayPass.start).updatedIocs).foldl ThreatIntelStore.addIoc store

theorem lookup_written (h : store.Keyed) (k : String) :
    (written chrono decayFactor config now order store).iocs.lookup k =
      (store.iocs.lookup k).map (decayed chrono decayFactor config now) := by
  have hr := order.reordered store.iocs
  have hhydrated : ∀ ioc ∈ (store.allIocs order).filterMap (outcome chrono decayFactor config now),
      hydrateIocMetadata ioc = ioc := by
    intro ioc' hmem
    obtain ⟨ioc, hioc, hout⟩ := List.mem_filterMap.mp hmem
    obtain ⟨l, hl⟩ := HashTable.mem_values.mp hioc
    have hstored := h.hydrated l ioc ((HashTable.lookup_of_reordered hr l).symm.trans hl)
    rw [outcome_eq_some hout, hydrateIocMetadata_withConfidence, hstored]
  have hkey (ioc ioc' : IoC) (hout : outcome chrono decayFactor config now ioc = some ioc') :
      iocKey ioc' = iocKey ioc := by
    rw [outcome_eq_some hout]
    rfl
  rw [written, updatedIocs_foldl, DecayPass.start, List.nil_append,
    ThreatIntelStore.iocs_foldl_addIoc hhydrated]
  exact HashTable.lookup_insertAll_filterMap h.key hkey hr k

variable (chrono decayFactor config now order) in
theorem values_written (h : store.Keyed) :
    (written chrono decayFactor config now order store).iocs.values.Perm
      (store.iocs.values.map (decayed chrono decayFactor config now)) := by
  rw [← HashTable.values_mapValues]
  refine HashTable.Reordered.values_perm (HashTable.reordered_of_lookup fun k => ?_)
  rw [lookup_written h, HashTable.lookup_mapValues]

/-- The number of the indicators that the loop sorts out. -/
theorem length_toRemove_allIocs (store : ThreatIntelStore) :
    ((store.allIocs order).foldl (decayOne chrono decayFactor config now)
      DecayPass.start).toRemove.length =
      store.iocs.values.countP fun ioc => (outcome chrono decayFactor config now ioc).isNone := by
  rw [length_toRemove_foldl, DecayPass.start, List.length_nil, Nat.zero_add]
  exact (order.reordered store.iocs).values_perm.symm.countP_eq _

variable (order) in
theorem toRemove_eq_nil_iff :
    ((store.allIocs order).foldl (decayOne chrono decayFactor config now)
      DecayPass.start).toRemove = [] ↔ NoneStale chrono decayFactor config now store := by
  rw [← List.length_eq_zero_iff, length_toRemove_allIocs, List.countP_eq_zero]
  constructor
  · intro h k ioc hk hstale
    refine h ioc (HashTable.mem_values.mpr ⟨k, hk⟩) ?_
    rw [outcome_eq_none_iff.mpr hstale]
    rfl
  · intro h ioc hmem hnone
    obtain ⟨k, hk⟩ := HashTable.mem_values.mp hmem
    exact h k ioc hk (outcome_eq_none_iff.mp (Option.isNone_iff_eq_none.mp hnone))

/-- What the pass writes back and `purge_expired` then takes away. -/
def Purged (chrono : Chrono) (decayFactor : ℚ → ℕ → ℚ) (config : DecayConfig) (now : ℤ)
    (store : ThreatIntelStore) (ioc : IoC) : Prop :=
  ¬NoneStale chrono decayFactor config now store ∧
    ∃ cut, cutoff chrono config now = some cut ∧ seenSince chrono cut ioc = false

variable (order finished) in
theorem applyDecay_of_noneStale (henabled : config.enabled = true)
    (hvalid : config.validate = .ok ()) (h : NoneStale chrono decayFactor config now store) :
    ∃ result, applyDecay chrono decayFactor config now order store finished =
        (written chrono decayFactor config now order store, some result) ∧
      result.iocsRemoved = 0 := by
  have hnil := (toRemove_eq_nil_iff order).mpr h
  unfold applyDecay
  rw [if_neg (Bool.eq_false_iff.not.mpr (not_not.mpr henabled)), hvalid]
  dsimp only
  rw [if_neg (not_not.mpr hnil)]
  exact ⟨_, rfl, List.length_eq_zero_iff.mpr hnil⟩

variable (order finished) in
theorem applyDecay_of_stale (henabled : config.enabled = true)
    (hvalid : config.validate = .ok ()) (hnow : chrono.parse (chrono.format now) = some now)
    (h : ¬NoneStale chrono decayFactor config now store) :
    (cutoff chrono config now = none ∧
      applyDecay chrono decayFactor config now order store finished =
        (written chrono decayFactor config now order store, none)) ∨
    ∃ cut result, cutoff chrono config now = some cut ∧
      applyDecay chrono decayFactor config now order store finished =
        (⟨(written chrono decayFactor config now order store).iocs.retain (seenSince chrono cut)⟩,
          some result) ∧
      result.iocsRemoved =
        store.iocs.values.countP fun ioc =>
          (outcome chrono decayFactor config now ioc).isNone := by
  have hnonempty := (toRemove_eq_nil_iff order).not.mpr h
  unfold applyDecay
  rw [if_neg (Bool.eq_false_iff.not.mpr (not_not.mpr henabled)), hvalid]
  dsimp only
  rw [if_pos hnonempty, ThreatIntelStore.purgeExpired, hnow]
  dsimp only
  rw [cutoff]
  cases chrono.addSeconds now (-(toI64 config.maxAgeDays * 86400)) with
  | none => exact .inl ⟨rfl, rfl⟩
  | some cut => exact .inr ⟨cut, _, rfl, rfl, length_toRemove_allIocs store⟩

/-- What was not purged is there with its confidence decayed, and nothing else is. -/
def LeavesDecayed (chrono : Chrono) (decayFactor : ℚ → ℕ → ℚ) (config : DecayConfig) (now : ℤ)
    (store after : ThreatIntelStore) : Prop :=
  ∀ k ioc', after.iocs.lookup k = some ioc' ↔
    ∃ ioc, store.iocs.lookup k = some ioc ∧ ¬Purged chrono decayFactor config now store ioc ∧
      decayed chrono decayFactor config now ioc = ioc'

theorem LeavesDecayed.there_iff {after : ThreatIntelStore}
    (h : LeavesDecayed chrono decayFactor config now store after) {k : String}
    (hioc : store.iocs.lookup k = some ioc) :
    (∃ ioc', after.iocs.lookup k = some ioc') ↔
      ¬Purged chrono decayFactor config now store ioc := by
  constructor
  · rintro ⟨ioc', hioc'⟩
    obtain ⟨old, hold, hkept, -⟩ := (h k ioc').mp hioc'
    cases hold.symm.trans hioc
    exact hkept
  · exact fun hkept => ⟨_, (h k _).mpr ⟨ioc, hioc, hkept, rfl⟩⟩

variable (order finished) in
theorem leavesDecayed_applyDecay (henabled : config.enabled = true)
    (hvalid : config.validate = .ok ()) (hnow : chrono.parse (chrono.format now) = some now)
    (hkeyed : store.Keyed) :
    LeavesDecayed chrono decayFactor config now store
      (applyDecay chrono decayFactor config now order store finished).1 := by
  intro k ioc'
  have hwritten : (written chrono decayFactor config now order store).iocs.lookup k = some ioc' ↔
      ∃ ioc, store.iocs.lookup k = some ioc ∧
        decayed chrono decayFactor config now ioc = ioc' := by
    rw [lookup_written hkeyed, Option.map_eq_some_iff]
  by_cases hfresh : NoneStale chrono decayFactor config now store
  · obtain ⟨result, heq, -⟩ := applyDecay_of_noneStale order finished henabled hvalid hfresh
    rw [heq, hwritten]
    refine exists_congr fun ioc => and_congr_right fun _ => ?_
    exact (and_iff_right fun hpurged => hpurged.1 hfresh).symm
  · obtain ⟨hnone, heq⟩ | ⟨cut, result, hcut, heq, -⟩ :=
      applyDecay_of_stale order finished henabled hvalid hnow hfresh
    · rw [heq, hwritten]
      refine exists_congr fun ioc => and_congr_right fun _ => (and_iff_right ?_).symm
      rintro ⟨-, cut, hcut, -⟩
      rw [hnone] at hcut
      cases hcut
    · rw [heq]
      dsimp only
      rw [HashTable.lookup_retain, Option.filter_eq_some_iff, hwritten]
      have hsince (ioc : IoC) : seenSince chrono cut (decayed chrono decayFactor config now ioc) =
          seenSince chrono cut ioc := by
        rw [seenSince, lastSeen_decayed, seenSince]
      constructor
      · rintro ⟨⟨ioc, hioc, rfl⟩, hkept⟩
        refine ⟨ioc, hioc, ?_, rfl⟩
        rintro ⟨-, cut', hcut', hlost⟩
        cases hcut.symm.trans hcut'
        rw [hsince, hlost] at hkept
        cases hkept
      · rintro ⟨ioc, hioc, hkept, rfl⟩
        refine ⟨⟨ioc, hioc, rfl⟩, ?_⟩
        rw [hsince]
        by_contra hlost
        exact hkept ⟨hfresh, cut, hcut, Bool.not_eq_true _ ▸ hlost⟩

theorem keyed_applyDecay (henabled : config.enabled = true) (hvalid : config.validate = .ok ())
    (hnow : chrono.parse (chrono.format now) = some now) (hkeyed : store.Keyed) :
    (applyDecay chrono decayFactor config now order store finished).1.Keyed := by
  constructor
  · intro k ioc' hk
    obtain ⟨ioc, hioc, -, rfl⟩ :=
      (leavesDecayed_applyDecay order finished henabled hvalid hnow hkeyed k ioc').mp hk
    rw [decayed_eq, ← hkeyed.key k ioc hioc]
    rfl
  · intro k ioc' hk
    obtain ⟨ioc, hioc, -, rfl⟩ :=
      (leavesDecayed_applyDecay order finished henabled hvalid hnow hkeyed k ioc').mp hk
    rw [decayed_eq, hydrateIocMetadata_withConfidence, hkeyed.hydrated k ioc hioc]

/-! ### Which indicators are removed -/

/-- What a pass is for: exactly the stale indicators are removed, and of the others nothing but the
confidence changes. -/
structure RemovesStale (chrono : Chrono) (decayFactor : ℚ → ℕ → ℚ) (config : DecayConfig) (now : ℤ)
    (store after : ThreatIntelStore) (result : DecayResult) : Prop where
  parsed : ∀ k ioc lastSeen, store.iocs.lookup k = some ioc →
    chrono.parse ioc.lastSeen = some lastSeen →
      ((∃ ioc', after.iocs.lookup k = some ioc') ↔
        ageSecs now lastSeen ≤ config.maxAgeDays * 86400 ∧
          config.minConfidence ≤
            ioc.confidence * decayFactor config.halfLifeDays (ageSecs now lastSeen))
  survivor : ∀ k ioc', after.iocs.lookup k = some ioc' →
    ∃ ioc, store.iocs.lookup k = some ioc ∧ ioc' = { ioc with confidence := ioc'.confidence }
  unparsed : ∀ k ioc, store.iocs.lookup k = some ioc → chrono.parse ioc.lastSeen = none →
    after.iocs.lookup k = some ioc
  removed : after.iocCount ≤ store.iocCount ∧
    result.iocsRemoved = store.iocCount - after.iocCount

/-- Of the indicators of at most `max_age_days`, counted in whole seconds, none has fallen below
`min_confidence`, unless it is past the cutoff by a fraction of a second, or by the conversion of
`max_age_days`; and those have. -/
def FadesWithAge (chrono : Chrono) (decayFactor : ℚ → ℕ → ℚ) (config : DecayConfig) (now : ℤ)
    (store : ThreatIntelStore) : Prop :=
  ∀ k ioc lastSeen, store.iocs.lookup k = some ioc → chrono.parse ioc.lastSeen = some lastSeen →
    ageSecs now lastSeen ≤ config.maxAgeDays * 86400 →
      (ioc.confidence * decayFactor config.halfLifeDays (ageSecs now lastSeen) <
          config.minConfidence ↔
        toI64 config.maxAgeDays * 86400 * 1000000000 < now - lastSeen)

theorem lt_ageSecs_iff {secs : ℕ} {lastSeen : ℤ} :
    secs < ageSecs now lastSeen ↔ (secs + 1) * 1000000000 ≤ now - lastSeen := by
  unfold ageSecs
  rcases le_total 0 (now - lastSeen) with hpast | hfuture
  · rw [Int.tdiv_eq_ediv_of_nonneg hpast]
    omega
  · have hnone : (now - lastSeen).tdiv 1000000000 = -((lastSeen - now) / 1000000000) := by
      rw [← neg_sub lastSeen now, Int.neg_tdiv, Int.tdiv_eq_ediv_of_nonneg (by omega)]
    omega

theorem toI64_le (n : ℕ) : toI64 n ≤ n := by
  unfold toI64 Int.bmod
  dsimp only
  split_ifs <;> omega

theorem seenSince_eq_false_iff {cut lastSeen : ℤ} (h : chrono.parse ioc.lastSeen = some lastSeen) :
    seenSince chrono cut ioc = false ↔ lastSeen < cut := by
  rw [seenSince, h]
  exact decide_eq_false_iff_not.trans not_le

theorem stale_iff {lastSeen : ℤ} (h : chrono.parse ioc.lastSeen = some lastSeen) :
    Stale chrono decayFactor config now ioc ↔
      config.maxAgeDays * 86400 < ageSecs now lastSeen ∨
        ioc.confidence * decayFactor config.halfLifeDays (ageSecs now lastSeen) <
          config.minConfidence := by
  constructor
  · rintro ⟨seen, hseen, hstale⟩
    cases hseen.symm.trans h
    exact hstale
  · exact fun hstale => ⟨lastSeen, h, hstale⟩

/-- What is too old in whole seconds is behind the cutoff as well, so the two go apart over the
others only. -/
theorem fadesWithAge_iff {cut : ℤ}
    (hadd : ∀ t secs u, chrono.addSeconds t secs = some u → u = t + secs * 1000000000)
    (hcut : cutoff chrono config now = some cut) :
    FadesWithAge chrono decayFactor config now store ↔
      ∀ k ioc lastSeen, store.iocs.lookup k = some ioc → chrono.parse ioc.lastSeen = some lastSeen →
        (Stale chrono decayFactor config now ioc ↔ lastSeen < cut) := by
  have hat : cut = now + -(toI64 config.maxAgeDays * 86400) * 1000000000 := hadd _ _ _ hcut
  refine forall_congr' fun k => forall_congr' fun ioc => forall_congr' fun lastSeen =>
    imp_congr_right fun hioc => imp_congr_right fun hparse => ?_
  have hbehind :
      lastSeen < cut ↔ toI64 config.maxAgeDays * 86400 * 1000000000 < now - lastSeen := by omega
  rw [stale_iff hparse, hbehind]
  rcases Nat.lt_or_ge (config.maxAgeDays * 86400) (ageSecs now lastSeen) with hold | hyoung
  · have hlong := lt_ageSecs_iff.mp hold
    have hle := toI64_le config.maxAgeDays
    refine iff_of_true (fun hyoung => absurd hold (not_lt.mpr hyoung)) ?_
    refine iff_of_true (.inl hold) ?_
    push_cast at hlong
    omega
  · rw [or_iff_right (not_lt.mpr hyoung)]
    exact forall_prop_of_true hyoung

/-- Where both criteria agree, as many are taken away as were sorted out. -/
theorem iocCount_retain {cut : ℤ} (hkeyed : store.Keyed)
    (h : ∀ k ioc, store.iocs.lookup k = some ioc →
      (Stale chrono decayFactor config now ioc ↔ seenSince chrono cut ioc = false)) :
    (ThreatIntelStore.mk ((written chrono decayFactor config now order store).iocs.retain
        (seenSince chrono cut))).iocCount +
      (store.iocs.values.countP fun ioc => (outcome chrono decayFactor config now ioc).isNone) =
        store.iocCount := by
  have hperm := values_written chrono decayFactor config now order hkeyed
  have hlost : ((written chrono decayFactor config now order store).iocs.values.filter
      fun ioc => !seenSince chrono cut ioc).length =
        store.iocs.values.countP fun ioc =>
          (outcome chrono decayFactor config now ioc).isNone := by
    rw [← List.countP_eq_length_filter, hperm.countP_eq, List.countP_map]
    refine List.countP_congr fun ioc hmem => ?_
    obtain ⟨k, hk⟩ := HashTable.mem_values.mp hmem
    rw [Function.comp_apply, Bool.not_eq_true', seenSince, lastSeen_decayed, ← seenSince,
      ← h k ioc hk, Option.isNone_iff_eq_none, outcome_eq_none_iff]
  have hlength := HashTable.length_values_retain
    (m := (written chrono decayFactor config now order store).iocs) (seenSince chrono cut)
  rw [hlost, hperm.length_eq, List.length_map] at hlength
  exact hlength

/-- A pass that purges the stale indicators and no others does what it is for. -/
theorem removesStale_of_agree {after : ThreatIntelStore} {result : DecayResult}
    (hleaves : LeavesDecayed chrono decayFactor config now store after)
    (hagree : ∀ k ioc, store.iocs.lookup k = some ioc →
      (Stale chrono decayFactor config now ioc ↔ Purged chrono decayFactor config now store ioc))
    (hcount : after.iocCount + result.iocsRemoved = store.iocCount) :
    RemovesStale chrono decayFactor config now store after result where
  parsed k ioc lastSeen hioc hparse := by
    rw [← not_lt, ← not_lt, ← not_or, ← stale_iff hparse, hagree k ioc hioc]
    exact hleaves.there_iff hioc
  survivor k ioc' hioc' := by
    obtain ⟨ioc, hioc, -, rfl⟩ := (hleaves k ioc').mp hioc'
    exact ⟨ioc, hioc, decayed_eq ioc⟩
  unparsed k ioc hioc hparse := by
    refine (hleaves k ioc).mpr ⟨ioc, hioc, ?_, decayed_of_parse_none hparse⟩
    rintro ⟨-, cut, -, hlost⟩
    rw [seenSince, hparse] at hlost
    cases hlost
  removed := by omega

theorem stale_iff_not_seenSince {cut : ℤ}
    (h : ∀ k ioc lastSeen, store.iocs.lookup k = some ioc →
      chrono.parse ioc.lastSeen = some lastSeen →
        (Stale chrono decayFactor config now ioc ↔ lastSeen < cut))
    {k : String} (hioc : store.iocs.lookup k = some ioc) :
    Stale chrono decayFactor config now ioc ↔ seenSince chrono cut ioc = false := by
  cases hparse : chrono.parse ioc.lastSeen with
  | none =>
    refine iff_of_false ?_ ?_
    · rintro ⟨lastSeen, hseen, -⟩
      rw [hparse] at hseen
      cases hseen
    · rw [seenSince, hparse]
      exact nofun
  | some lastSeen =>
    rw [seenSince_eq_false_iff hparse]
    exact h k ioc lastSeen hioc hparse

/-- The cutoff of `purge_expired` has to part the stale indicators from the others. -/
theorem removesStale_iff {after : ThreatIntelStore} {result : DecayResult} {cut : ℤ}
    (hadd : ∀ t secs u, chrono.addSeconds t secs = some u → u = t + secs * 1000000000)
    (hfresh : ¬NoneStale chrono decayFactor config now store)
    (hcut : cutoff chrono config now = some cut)
    (hleaves : LeavesDecayed chrono decayFactor config now store after)
    (hcount : (∀ k ioc, store.iocs.lookup k = some ioc →
        (Stale chrono decayFactor config now ioc ↔ seenSince chrono cut ioc = false)) →
      after.iocCount + result.iocsRemoved = store.iocCount) :
    RemovesStale chrono decayFactor config now store after result ↔
      FadesWithAge chrono decayFactor config now store := by
  have hpurged {ioc : IoC} : Purged chrono decayFactor config now store ioc ↔
      seenSince chrono cut ioc = false := by
    constructor
    · rintro ⟨-, cut', hcut', hlost⟩
      cases hcut.symm.trans hcut'
      exact hlost
    · exact fun hlost => ⟨hfresh, cut, hcut, hlost⟩
  rw [fadesWithAge_iff hadd hcut]
  constructor
  · intro h k ioc lastSeen hioc hparse
    have hthere := h.parsed k ioc lastSeen hioc hparse
    rw [← not_lt, ← not_lt, ← not_or, ← stale_iff hparse, hleaves.there_iff hioc, not_iff_not,
      hpurged, seenSince_eq_false_iff hparse] at hthere
    exact hthere.symm
  · intro hfades
    have hagree {k : String} {ioc : IoC} (hioc : store.iocs.lookup k = some ioc) :
        Stale chrono decayFactor config now ioc ↔ seenSince chrono cut ioc = false :=
      stale_iff_not_seenSince hfades hioc
    exact removesStale_of_agree hleaves (fun k ioc hioc => (hagree hioc).trans hpurged.symm)
      (hcount fun k ioc hioc => hagree hioc)

/-- A pass removes exactly the stale indicators where there are none, and where age alone makes an
indicator stale. -/
theorem decay_removes_stale_iff (order : HashTable.IterationOrder String IoC)
    (henabled : config.enabled = true) (hvalid : config.validate = .ok ()) (iocs : List IoC)
    (hnow : chrono.parse (chrono.format now) = some now)
    (hadd : ∀ t secs u, chrono.addSeconds t secs = some u → u = t + secs * 1000000000) :
    (∃ after result,
      applyDecay chrono decayFactor config now order (ThreatIntelStore.filledWith iocs) finished =
        (after, some result) ∧
      RemovesStale chrono decayFactor config now (ThreatIntelStore.filledWith iocs) after result) ↔
    NoneStale chrono decayFactor config now (ThreatIntelStore.filledWith iocs) ∨
      (∃ cut, cutoff chrono config now = some cut) ∧
        FadesWithAge chrono decayFactor config now (ThreatIntelStore.filledWith iocs) := by
  have hkeyed := ThreatIntelStore.keyed_filledWith iocs
  generalize ThreatIntelStore.filledWith iocs = store at hkeyed ⊢
  have hleaves : LeavesDecayed chrono decayFactor config now store
      (applyDecay chrono decayFactor config now order store finished).1 :=
    leavesDecayed_applyDecay order finished henabled hvalid hnow hkeyed
  by_cases hfresh : NoneStale chrono decayFactor config now store
  · refine iff_of_true ?_ (.inl hfresh)
    obtain ⟨result, heq, hremoved⟩ := applyDecay_of_noneStale order finished henabled hvalid hfresh
    have hcount := (values_written chrono decayFactor config now order hkeyed).length_eq
    rw [List.length_map] at hcount
    rw [heq] at hleaves
    refine ⟨_, result, heq, removesStale_of_agree hleaves ?_ (hremoved ▸ hcount)⟩
    exact fun k ioc hk => iff_of_false (hfresh k ioc hk) fun h => h.1 hfresh
  · rw [or_iff_right hfresh]
    obtain ⟨hnone, heq⟩ | ⟨cut, result, hcut, heq, hremoved⟩ :=
      applyDecay_of_stale order finished henabled hvalid hnow hfresh
    · rw [heq]
      refine iff_of_false ?_ ?_
      · rintro ⟨after, result, hresult, -⟩
        cases (Prod.mk.inj hresult).2
      · rintro ⟨⟨cut, hcut⟩, -⟩
        rw [hnone] at hcut
        cases hcut
    · rw [heq] at hleaves ⊢
      have hexact : RemovesStale chrono decayFactor config now store _ result ↔ _ :=
        removesStale_iff hadd hfresh hcut hleaves
          fun hagree => hremoved ▸ iocCount_retain hkeyed hagree
      rw [and_iff_right ⟨cut, hcut⟩, ← hexact]
      constructor
      · rintro ⟨after, result', hresult, h⟩
        cases hresult
        exact h
      · exact fun h => ⟨_, result, rfl, h⟩

end

/-- An address that was last seen at the start of 1970. -/
def oldAddress (confidence : ℚ) : IoC where
  iocType := .ipAddress
  value := "10.0.0.2"
  confidence := confidence
  severity := "high"
  source := "test"
  firstSeen := "1970-01-01T00:00:00+00:00"
  lastSeen := "1970-01-01T00:00:00+00:00"
  tags := []
  relatedIocs := []
  metadata := IndicatorMetadata.default
  sightings := []

/-- A factor that halves a confidence within the first second. -/
def halved (_ : ℚ) (age : ℕ) : ℚ := if age = 0 then 1 else 1 / 2

theorem lookup_oldAddress {confidence : ℚ} {k : String} {ioc : IoC}
    (h : (ThreatIntelStore.filledWith [oldAddress confidence]).iocs.lookup k = some ioc) :
    ioc = hydrateIocMetadata (oldAddress confidence) :=
  List.mem_singleton.mp (HashTable.mem_values.mpr ⟨k, h⟩)

theorem firstHour_addSeconds (t secs u : ℤ) (h : firstHour.addSeconds t secs = some u) :
    u = t + secs * 1000000000 := (Option.some.inj h).symm

/-- An hour later, with no age allowed, the address is removed. -/
theorem decay_removes_stale_address :
    ∃ after result,
      applyDecay firstHour halved { DecayConfig.default with maxAgeDays := 0 } 3600000000000
        HashTable.IterationOrder.asIs (ThreatIntelStore.filledWith [oldAddress 1]) 3600000000000 =
          (after, some result) ∧
      RemovesStale firstHour halved { DecayConfig.default with maxAgeDays := 0 } 3600000000000
        (ThreatIntelStore.filledWith [oldAddress 1]) after result := by
  refine (decay_removes_stale_iff HashTable.IterationOrder.asIs rfl (by decide +kernel)
    [oldAddress 1] (by decide +kernel) firstHour_addSeconds).mpr (.inr ⟨⟨_, rfl⟩, ?_⟩)
  intro k ioc lastSeen hioc hparse hyoung
  obtain rfl := lookup_oldAddress hioc
  have hseen : firstHour.parse (hydrateIocMetadata (oldAddress 1)).lastSeen = some 0 := by
    decide +kernel
  cases hparse.symm.trans hseen
  exact absurd hyoung (by decide)

/-- Within the allowed age, an address of too low a confidence is counted as removed and stays. -/
theorem decay_removes_stale_not :
    ({ DecayConfig.default with minConfidence := 3 / 10 } : DecayConfig).validate = .ok () ∧
    (∀ halfLife age, 0 ≤ halved halfLife age ∧ halved halfLife age ≤ 1) ∧
    ¬∃ after result,
      applyDecay firstHour halved { DecayConfig.default with minConfidence := 3 / 10 } 3600000000000
        HashTable.IterationOrder.asIs (ThreatIntelStore.filledWith [oldAddress (1 / 2)])
        3600000000000 = (after, some result) ∧
      RemovesStale firstHour halved { DecayConfig.default with minConfidence := 3 / 10 }
        3600000000000 (ThreatIntelStore.filledWith [oldAddress (1 / 2)]) after result := by
  refine ⟨by decide +kernel, fun halfLife age => ?_, ?_⟩
  · unfold halved
    split_ifs <;> norm_num
  · rintro ⟨after, result, heq, h⟩
    have hthere : after.iocCount = 1 := by
      rw [← (Prod.mk.inj heq).1]
      decide +kernel
    have hremoved : (some result).map DecayResult.iocsRemoved = some 1 := by
      rw [← (Prod.mk.inj heq).2]
      decide +kernel
    have hcount := h.removed.2
    rw [Option.some.inj hremoved, hthere] at hcount
    exact absurd hcount (by decide +kernel)

end Wardex.ThreatIntel
