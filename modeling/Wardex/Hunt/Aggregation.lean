import Mathlib.Algebra.GroupWithZero.Nat
import Wardex.Hunt.Pipe
import Wardex.Hunt.RoundTrip

/-! Whether an aggregation counts what a hunt finds: the buckets of a field, and the largest of
them, against the documents that match the query. -/

namespace Wardex.Hunt

open Wardex.Lib

/-! ## Agreement -/

def fieldValues (docs : List SearchDocument) (f : FieldName) : List String :=
  docs.map fun doc => fieldValue doc f.name

/-- A bucket for each value that there is, with the number of times that it is there. -/
def valueBuckets (values : List String) : List HuntAggBucket :=
  (values.filter fun v => v ≠ "").dedup.map fun v => ⟨v, values.count v⟩

/-- Along with these one of their own for the documents without a value. -/
def fieldBuckets (values : List String) : List HuntAggBucket :=
  valueBuckets values ++ if "" ∈ values then [⟨"(empty)", values.count ""⟩] else []

/-- The documents that a hunt for the query finds. -/
def found (lower : String → String) (docs : List SearchDocument) (p : HuntPredicate) :
    List SearchDocument := docs.filter (evaluatePredicate lower p)

/-- The aggregations of a query that is parsed as `p` agree with the hunt for it. -/
structure AgreesWithHunt (lower : String → String) (docs : List SearchDocument) (q : String)
    (p : HuntPredicate) (f : FieldName) (n : UInt64) : Prop where
  counts : ∀ o, ∃ hunted r, hunt lower docs q = .ok hunted ∧
    huntAggregate o lower docs (countBy q f) = .ok r ∧ r.totalMatching = hunted.total ∧
    (r.buckets.map HuntAggBucket.key).Nodup ∧
    (r.buckets.map HuntAggBucket.count).sum = r.totalMatching ∧
    r.buckets.Perm (fieldBuckets (fieldValues (found lower docs p) f))
  largest : ∀ o, ∃ r, huntAggregate o lower docs (topOf q n f) = .ok r ∧
    IsLargest HuntAggBucket.count n.toNat (valueBuckets (fieldValues (found lower docs p) f))
      r.buckets
  stable : ∀ o o' r r', huntAggregate o lower docs (topOf q n f) = .ok r →
    huntAggregate o' lower docs (topOf q n f) = .ok r' → r.buckets = r'.buckets

/-- A star alone finds all documents; no value is the name of the bucket of those without one, where
there are such; and no two values that are found equally often come among the first `n`. -/
structure Countable (lower : String → String) (docs : List SearchDocument) (q : String)
    (p : HuntPredicate) (f : FieldName) (n : UInt64) : Prop where
  star : trimText q = "*" → ∀ doc ∈ docs, evaluatePredicate lower p doc = true
  empty : "" ∈ fieldValues (found lower docs p) f → "(empty)" ∉ fieldValues (found lower docs p) f
  ties : Distinguished HuntAggBucket.count n.toNat
    (valueBuckets (fieldValues (found lower docs p) f))

/-- The query is cut at a pipe of its own: it finds nothing, and neither does what stands in front
of that pipe, behind which an aggregation is read. -/
structure CountsNothing (lower : String → String) (docs : List SearchDocument) (q : String)
    (p : HuntPredicate) (f : FieldName) : Prop where
  found : found lower docs p = []
  read : ∃ before agg, parseHuntPipe lower (countBy q f) = .ok (before, some agg) ∧
    matching lower docs before = .ok []

variable {lower : Lowercase} {q : String} {p : HuntPredicate} {f : FieldName} {n : UInt64}
  {docs : List SearchDocument} {o : IterationOrder String} {values : List String}

/-! ## Buckets -/

def HuntAggBucket.ofTally (entry : String × ℕ) : HuntAggBucket := ⟨entry.1, entry.2⟩

theorem keyCounts_perm (o : IterationOrder String) (keys : List String) :
    (keyCounts o keys).Perm ((tally keys).map HuntAggBucket.ofTally) := by
  have hcounts : keyCounts o keys = ((groups o (keys.map fun key => (key, key))).map
      fun group => (group.1, group.2.length)).map HuntAggBucket.ofTally := by
    rw [keyCounts, List.map_map]
    rfl
  rw [hcounts]
  exact (groups_perm_tally o keys).map _

theorem map_key_ofTally (keys : List String) :
    ((tally keys).map HuntAggBucket.ofTally).map HuntAggBucket.key = keys.dedup := by
  rw [List.map_map, ← map_fst_tally]
  rfl

theorem nodup_keyCounts (o : IterationOrder String) (keys : List String) :
    ((keyCounts o keys).map HuntAggBucket.key).Nodup := by
  rw [((keyCounts_perm o keys).map HuntAggBucket.key).nodup_iff, map_key_ofTally]
  exact List.nodup_dedup keys

theorem sum_keyCounts (o : IterationOrder String) (keys : List String) :
    ((keyCounts o keys).map HuntAggBucket.count).sum = keys.length := by
  rw [((keyCounts_perm o keys).map HuntAggBucket.count).sum_eq, List.map_map]
  exact sum_tally keys

theorem valueBuckets_eq_tally (values : List String) :
    valueBuckets values = (tally (values.filter fun v => v ≠ "")).map HuntAggBucket.ofTally := by
  rw [tally, List.map_map]
  refine List.map_congr_left fun v hv => ?_
  have hcount : (values.filter fun v => v ≠ "").count v = values.count v := by
    rw [List.count_filter]
    exact (List.mem_filter.mp (List.mem_dedup.mp hv)).2
  exact congrArg (HuntAggBucket.mk v) hcount.symm

theorem nodup_valueBuckets (values : List String) : (valueBuckets values).Nodup := by
  have hkeys := map_key_ofTally (values.filter fun v => v ≠ "")
  rw [← valueBuckets_eq_tally] at hkeys
  exact List.Nodup.of_map HuntAggBucket.key (hkeys ▸ List.nodup_dedup _)

/-- The key under which a document with the value is counted. -/
def bucketKey (value : String) : String := if value = "" then "(empty)" else value

theorem map_bucketKey (hvalues : ∀ v ∈ values, v ≠ "") : values.map bucketKey = values := by
  refine (List.map_congr_left fun v hv => ?_).trans (List.map_id values)
  exact if_neg (hvalues v hv)

/-- The documents without a value have a bucket of their own where no value is its name. -/
theorem tally_bucketKey_perm_iff (values : List String) :
    ((tally (values.map bucketKey)).map HuntAggBucket.ofTally).Perm (fieldBuckets values) ↔
      ("" ∈ values → "(empty)" ∉ values) := by
  constructor
  · intro hperm hempty hname
    have hkeys := hperm.map HuntAggBucket.key
    rw [map_key_ofTally, fieldBuckets, if_pos hempty, List.map_append] at hkeys
    have hnodup := hkeys.nodup_iff.mp (List.nodup_dedup _)
    have hvalue : "(empty)" ∈ (valueBuckets values).map HuntAggBucket.key := by
      rw [valueBuckets_eq_tally, map_key_ofTally, List.mem_dedup]
      exact List.mem_filter.mpr ⟨hname, by decide⟩
    exact (List.nodup_append.mp hnodup).2.2 _ hvalue _ (List.mem_singleton_self _) rfl
  · intro h
    have hkept : ∀ v ∈ values.filter fun v => v ≠ "", v ≠ "" := fun v hv =>
      of_decide_eq_true (List.mem_filter.mp hv).2
    rw [fieldBuckets, valueBuckets_eq_tally]
    by_cases hempty : "" ∈ values
    · have hdisjoint : (values.filter fun v => v ≠ "").Disjoint
          (List.replicate (values.count "") "(empty)") := by
        intro v hv hv'
        obtain rfl := (List.mem_replicate.mp hv').2
        exact h hempty (List.mem_filter.mp hv).1
      have hsplit : values.Perm
          ((values.filter fun v => v ≠ "") ++ List.replicate (values.count "") "") := by
        rw [← List.filter_eq]
        have happend := List.filter_append_perm (fun v => decide (v ≠ "")) values
        simp only [ne_eq, decide_not, Bool.not_not] at happend ⊢
        exact happend.symm
      have hkeys : (values.map bucketKey).Perm
          ((values.filter fun v => v ≠ "") ++ List.replicate (values.count "") "(empty)") := by
        have hmap := hsplit.map bucketKey
        rw [List.map_append, map_bucketKey hkept, List.map_replicate] at hmap
        exact hmap
      have htally := tally_perm hkeys
      rw [tally_append hdisjoint, tally_replicate (List.count_pos_iff.mpr hempty).ne'] at htally
      rw [if_pos hempty]
      exact (htally.map HuntAggBucket.ofTally).trans (List.Perm.of_eq List.map_append)
    · have hsome : ∀ v ∈ values, v ≠ "" := fun v hv hnil => hempty (hnil ▸ hv)
      have hall : (values.filter fun v => v ≠ "") = values :=
        List.filter_eq_self.mpr fun v hv => decide_eq_true (hsome v hv)
      rw [if_neg hempty, List.append_nil, map_bucketKey hsome, hall]

/-! ## What is aggregated -/

theorem aggregate_count (o : IterationOrder String) (docs : List SearchDocument) (f : FieldName) :
    (aggregate o docs (.count (some f.name))).1.Perm
      (keyCounts o ((fieldValues docs f).map bucketKey)) := by
  rw [fieldValues, List.map_map]
  exact List.perm_insertionSort _ _

/-- The buckets can come in any order. -/
theorem exists_order_keyCounts {keys : List String} {buckets : List HuntAggBucket}
    (h : buckets.Perm ((tally keys).map HuntAggBucket.ofTally)) :
    ∃ o, keyCounts o keys = buckets := by
  have hall (o : IterationOrder String) :
      ((groups o (keys.map fun key => (key, key))).filter fun _ => true) =
        groups o (keys.map fun key => (key, key)) := List.filter_eq_self.mpr fun _ _ => rfl
  have hperm : buckets.Perm (((groups insertionOrder (keys.map fun key => (key, key))).filter
      fun _ => true).map fun group => ⟨group.1, group.2.length⟩) := by
    rw [hall]
    exact h.trans (keyCounts_perm insertionOrder keys).symm
  obtain ⟨o, ho⟩ := exists_order_groups _ _ _ hperm
  rw [hall] at ho
  exact ⟨o, ho⟩

theorem aggregate_top (o : IterationOrder String) (n : ℕ) (docs : List SearchDocument)
    (f : FieldName) : IsLargest HuntAggBucket.count n (valueBuckets (fieldValues docs f))
      (aggregate o docs (.top n f.name)).1 := by
  have hlargest :=
    isLargest_largest HuntAggBucket.count n (keyCounts o (nonEmptyValues docs f.name))
  rw [valueBuckets_eq_tally]
  exact hlargest.perm (keyCounts_perm o _)

theorem largest_eq_iff (n : ℕ) (docs : List SearchDocument) (f : FieldName) :
    (∀ o o', (aggregate o docs (.top n f.name)).1 = (aggregate o' docs (.top n f.name)).1) ↔
      Distinguished HuntAggBucket.count n (valueBuckets (fieldValues docs f)) := by
  rw [← largest_eq_iff_distinguished (nodup_valueBuckets _), valueBuckets_eq_tally]
  constructor
  · intro h l l' hl hl'
    obtain ⟨o, rfl⟩ := exists_order_keyCounts hl
    obtain ⟨o', rfl⟩ := exists_order_keyCounts hl'
    exact h o o'
  · intro h o o'
    exact h _ _ (keyCounts_perm o _) (keyCounts_perm o' _)

/-! ## Agreement with the hunt -/

/-- The documents that are aggregated. -/
def matched (lower : String → String) (docs : List SearchDocument) (q : String)
    (p : HuntPredicate) : List SearchDocument :=
  if trimText q = "*" then docs else found lower docs p

/-- The query is read alike in front of the pipe, but for a star alone. -/
theorem matching_trimText (hq : parseHuntQuery q = .ok p) (hplain : Plain q) :
    matching lower.lower docs (trimText q) =
      .ok (matched lower.lower docs q p) := by
  have htokens : tokenizeHunt (trimText q).toList = tokenizeHunt q.toList := by
    rw [trimText, String.toList_ofList]
    exact hplain.trimmed
  have hparse : parseHuntQuery (trimText q) = .ok p := by
    rw [← hq, parseHuntQuery, parseHuntQuery, htokens]
  have hsome : trimText q ≠ "" := by
    intro hnil
    rw [hnil, parseHuntQuery, String.toList_empty, tokenizeHunt_nil] at hparse
    cases hparse
  rw [matching, matched, hparse]
  by_cases hstar : trimText q = "*"
  · rw [if_pos (Or.inr hstar), if_pos hstar]
  · rw [if_neg (not_or.mpr ⟨hsome, hstar⟩), if_neg hstar]
    rfl

/-- These are what the hunt finds, where a star alone finds all. -/
theorem matched_eq_found_iff {lower : String → String} :
    matched lower docs q p = found lower docs p ↔
      (trimText q = "*" → ∀ doc ∈ docs, evaluatePredicate lower p doc = true) := by
  rw [matched]
  by_cases hstar : trimText q = "*"
  · rw [if_pos hstar, eq_comm, found, List.filter_eq_self]
    exact ⟨fun h _ => h, fun h => h hstar⟩
  · rw [if_neg hstar]
    exact iff_of_true rfl fun h => absurd h hstar

/-- The result of aggregating what is matched. -/
def aggregated (o : IterationOrder String) (input : String) (docs : List SearchDocument)
    (agg : HuntAggregation) : HuntAggregationResult :=
  ⟨input, agg.description, docs.length, (aggregate o docs agg).1, (aggregate o docs agg).2⟩

theorem huntAggregate_of_read {input before : String} {agg : HuntAggregation}
    {docs' : List SearchDocument} (o : IterationOrder String)
    (hread : parseHuntPipe lower.lower input = .ok (before, some agg))
    (hmatching : matching lower.lower docs before = .ok docs') :
    huntAggregate o lower.lower docs input = .ok (aggregated o input docs' agg) := by
  rw [huntAggregate, hread]
  dsimp only
  rw [hmatching]
  rfl

theorem huntAggregate_countBy (lower : Lowercase) (docs : List SearchDocument) (f : FieldName)
    (hq : parseHuntQuery q = .ok p) (hplain : Plain q) (o : IterationOrder String) :
    huntAggregate o lower.lower docs (countBy q f) =
      .ok (aggregated o (countBy q f) (matched lower.lower docs q p) (.count (some f.name))) :=
  huntAggregate_of_read o (parseHuntPipe_countBy hplain.pipe) (matching_trimText hq hplain)

theorem huntAggregate_topOf (lower : Lowercase) (docs : List SearchDocument) (f : FieldName)
    (n : UInt64) (hq : parseHuntQuery q = .ok p) (hplain : Plain q) (o : IterationOrder String) :
    huntAggregate o lower.lower docs (topOf q n f) =
      .ok (aggregated o (topOf q n f) (matched lower.lower docs q p) (.top n.toNat f.name)) :=
  huntAggregate_of_read o (parseHuntPipe_topOf hplain.pipe) (matching_trimText hq hplain)

theorem hunt_eq (lower : Lowercase) (docs : List SearchDocument) (hq : parseHuntQuery q = .ok p) :
    ∃ hunted, hunt lower.lower docs q = .ok hunted ∧
      hunted.total = (found lower.lower docs p).length := by
  rw [hunt, hq]
  exact ⟨_, rfl, List.length_map _⟩

theorem AgreesWithHunt.countable (hq : parseHuntQuery q = .ok p) (hplain : Plain q)
    (h : AgreesWithHunt lower.lower docs q p f n) : Countable lower.lower docs q p f n := by
  have hcount := huntAggregate_countBy lower docs f hq hplain insertionOrder
  have htop := huntAggregate_topOf lower docs f n hq hplain
  obtain ⟨hunted, hhunt, hfound⟩ := hunt_eq lower docs hq
  obtain ⟨hunted', r, hhunt', hr, htotal, -, -, hbuckets⟩ := h.counts insertionOrder
  obtain rfl := Except.ok.inj (hhunt.symm.trans hhunt')
  obtain rfl := Except.ok.inj (hcount.symm.trans hr)
  have hstar : trimText q = "*" → ∀ doc ∈ docs, evaluatePredicate lower.lower p doc = true := by
    intro hstar
    rw [aggregated, matched, if_pos hstar] at htotal
    exact List.length_filter_eq_length_iff.mp (hfound.symm.trans htotal.symm)
  rw [matched_eq_found_iff.mpr hstar] at hbuckets htop
  have hkeys := (keyCounts_perm insertionOrder _).symm.trans
    ((aggregate_count insertionOrder _ f).symm.trans hbuckets)
  exact ⟨hstar, (tally_bucketKey_perm_iff _).mp hkeys,
    (largest_eq_iff n.toNat _ f).mp fun o o' => h.stable o o' _ _ (htop o) (htop o')⟩

theorem Countable.agreesWithHunt (hq : parseHuntQuery q = .ok p) (hplain : Plain q)
    (h : Countable lower.lower docs q p f n) : AgreesWithHunt lower.lower docs q p f n := by
  have hcount := huntAggregate_countBy lower docs f hq hplain
  have htop := huntAggregate_topOf lower docs f n hq hplain
  rw [matched_eq_found_iff.mpr h.star] at hcount htop
  obtain ⟨hunted, hhunt, hfound⟩ := hunt_eq lower docs hq
  refine ⟨fun o => ⟨hunted, _, hhunt, hcount o, hfound.symm, ?_, ?_, ?_⟩, fun o =>
    ⟨_, htop o, aggregate_top o n.toNat _ f⟩, fun o o' r r' hr hr' => ?_⟩
  · rw [aggregated, ((aggregate_count o _ f).map HuntAggBucket.key).nodup_iff]
    exact nodup_keyCounts o _
  · rw [aggregated, ((aggregate_count o _ f).map HuntAggBucket.count).sum_eq, sum_keyCounts,
      List.length_map, fieldValues, List.length_map]
  · exact (aggregate_count o _ f).trans
      ((keyCounts_perm o _).trans ((tally_bucketKey_perm_iff _).mpr h.empty))
  · obtain rfl := Except.ok.inj ((htop o).symm.trans hr)
    obtain rfl := Except.ok.inj ((htop o').symm.trans hr')
    exact (largest_eq_iff n.toNat _ f).mpr h.ties o o'

/-! ## Queries with a pipe of their own -/

theorem toOption_eq_some {ε α : Type*} {e : Except ε α} {a : α} :
    e.toOption = some a ↔ e = .ok a := by
  cases e with
  | error e => exact iff_of_false nofun nofun
  | ok b => exact ⟨fun h => congrArg _ (Option.some.inj h), fun h => congrArg _ (Except.ok.inj h)⟩

theorem aggregate_nil (o : IterationOrder String) (agg : HuntAggregation) :
    (aggregate o [] agg).1 = [] := by
  have hkeys : keyCounts o [] = [] := (keyCounts_perm o []).eq_nil
  cases agg with
  | count groupBy =>
    cases groupBy with
    | none => rfl
    | some field => exact congrArg (List.insertionSort (Above HuntAggBucket.count)) hkeys
  | top n field =>
    exact (congrArg (largest HuntAggBucket.count n) hkeys).trans List.take_nil
  | values field => exact congrArg (List.map _) (o.perm []).eq_nil
  | countDistinct field => rfl
  | min field => rfl
  | max field => rfl

/-- What is counted by such a query is read from it alone. -/
theorem exists_read_of_piped {r : HuntAggregationResult} (hpipe : '|' ∈ q.toList)
    (h : huntAggregate o lower.lower docs (countBy q f) = .ok r) :
    ∃ before agg docs', parseHuntPipe lower.lower (countBy q f) = .ok (before, some agg) ∧
      matching lower.lower docs before = .ok docs' ∧ r = aggregated o (countBy q f) docs' agg := by
  obtain ⟨before, behind, hsplit, hbefore⟩ := List.eq_append_cons_of_mem hpipe
  obtain ⟨text, hread⟩ := parseHuntPipe_piped lower (toList_countBy q f) hsplit hbefore
    (plain_countWords f)
  cases hagg : parseAggregation text (lowerWords lower.lower behind ++ "|" :: countWords f) with
  | error e =>
    rw [huntAggregate, hread, hagg] at h
    cases h
  | ok agg =>
    replace hread : parseHuntPipe lower.lower (countBy q f) =
        .ok (String.ofList (trim before), some agg) := hread.trans (by rw [hagg]; rfl)
    cases hmatching : matching lower.lower docs (String.ofList (trim before)) with
    | error e =>
      rw [huntAggregate, hread] at h
      dsimp only at h
      rw [hmatching] at h
      cases h
    | ok docs' =>
      rw [huntAggregate_of_read o hread hmatching] at h
      exact ⟨_, agg, docs', hread, hmatching, (Except.ok.inj h).symm⟩

theorem agreesWithHunt_piped_iff (hq : parseHuntQuery q = .ok p) (hpipe : '|' ∈ q.toList) :
    (∀ n, AgreesWithHunt lower.lower docs q p f n) ↔ CountsNothing lower.lower docs q p f := by
  obtain ⟨hunted, hhunt, hfound⟩ := hunt_eq lower docs hq
  have htop (n : UInt64) {before : String} {agg : HuntAggregation}
      (hread : parseHuntPipe lower.lower (countBy q f) = .ok (before, some agg)) :
      parseHuntPipe lower.lower (topOf q n f) = .ok (before, some agg) := by
    rw [← toOption_eq_some, parseHuntPipe_toOption hpipe, toOption_eq_some]
    exact hread
  constructor
  · intro h
    obtain ⟨hunted', r, hhunt', hr, htotal, -, hsum, -⟩ := (h 0).counts insertionOrder
    obtain rfl := Except.ok.inj (hhunt.symm.trans hhunt')
    obtain ⟨before, agg, docs', hread, hmatching, rfl⟩ := exists_read_of_piped hpipe hr
    -- the first none are read as the same aggregation, which therefore has no buckets
    obtain ⟨r', hr', hlargest⟩ := (h 0).largest insertionOrder
    rw [huntAggregate_of_read insertionOrder (htop 0 hread) hmatching] at hr'
    obtain rfl := Except.ok.inj hr'
    have hnone : (aggregate insertionOrder docs' agg).1 = [] :=
      List.length_eq_zero_iff.mp (hlargest.length.trans (Nat.zero_min _))
    have hempty : docs'.length = 0 := by
      rw [aggregated, hnone] at hsum
      exact hsum.symm
    refine ⟨List.length_eq_zero_iff.mp (hfound.symm.trans (htotal.symm.trans hempty)), before, agg,
      hread, ?_⟩
    rw [hmatching, List.length_eq_zero_iff.mp hempty]
  · rintro ⟨hnothing, before, agg, hread, hmatching⟩ n
    have hbuckets : fieldValues (found lower.lower docs p) f = [] := by
      rw [hnothing]
      rfl
    have hcount (o : IterationOrder String) := huntAggregate_of_read o hread hmatching
    have hlargest (o : IterationOrder String) := huntAggregate_of_read o (htop n hread) hmatching
    rw [hnothing] at hfound
    refine ⟨fun o => ⟨hunted, _, hhunt, hcount o, hfound.symm, ?_, ?_, ?_⟩, fun o =>
      ⟨_, hlargest o, ?_⟩, fun o o' r r' hr hr' => ?_⟩
    · rw [aggregated, aggregate_nil]
      exact List.nodup_nil
    · rw [aggregated, aggregate_nil]
      rfl
    · rw [aggregated, aggregate_nil, hbuckets]
      exact List.Perm.refl _
    · rw [aggregated, aggregate_nil, hbuckets]
      exact ⟨List.Subperm.refl _, (Nat.min_zero _).symm, List.Pairwise.nil, nofun⟩
    · obtain rfl := Except.ok.inj ((hlargest o).symm.trans hr)
      obtain rfl := Except.ok.inj ((hlargest o').symm.trans hr')
      rw [aggregated, aggregated, aggregate_nil, aggregate_nil]

/-! ## Downloads -/

theorem parseHuntQuery_word {text : String} (hne : text ≠ "")
    (hword : text.toList.all isWordChar = true) (hquote : '"' ∉ text.toList)
    (htoken : wordToken text.toList = .word text) :
    parseHuntQuery text = .ok (.freeText text) := by
  rw [parseHuntQuery_eq_ok]
  have htokens : tokenizeHunt text.toList = [.word text] := by
    rw [← htoken]
    cases htext : text.toList with
    | nil => exact absurd (String.toList_eq_nil_iff.mp htext) hne
    | cons c rest =>
      rw [htext] at hword hquote
      obtain ⟨hc, hrest⟩ := List.forall_mem_cons.mp (List.all_eq_true.mp hword)
      rw [tokenizeHunt_word hc (List.ne_of_not_mem_cons hquote).symm,
        List.takeWhile_eq_self_iff.mpr hrest, List.dropWhile_eq_nil_iff.mpr hrest, tokenizeHunt_nil]
  rw [htokens]
  exact Derives.conjunction (Derives.operand Derives.word)

theorem toLower_of_isPlain {c : Char} (hc : isPlain c = true) : c.toLower = c := by
  refine dif_neg ?_
  rintro ⟨hlow, hhigh⟩
  have hupper : c.isUpper = true := by
    exact decide_eq_true ⟨hlow, hhigh⟩
  rw [isPlain, hupper, Bool.not_true, Bool.and_false, Bool.false_and] at hc
  cases hc

/-- Lower case of ASCII letters alone. -/
def asciiLowercase : Lowercase where
  lower := toAsciiLowercase
  plain word hword := by
    have hmap : word.toList.map Char.toLower = word.toList :=
      (List.map_congr_left fun c hc => toLower_of_isPlain (hword.2 c hc)).trans (List.map_id _)
    rw [toAsciiLowercase, hmap, String.ofList_toList]

def deviceField : FieldName := ⟨"device_id", by decide⟩

def userField : FieldName := ⟨"user_name", by decide⟩

/-- A process that fetches a file from a host on which it runs as a user. -/
def fetched (device user : String) : SearchDocument where
  timestamp := "2026-03-01T10:00:00Z"
  deviceId := device
  eventClass := "process_start"
  processName := "curl"
  commandLine := "curl -O 203.0.113.9/kit.sh"
  srcIp := "10.0.0.4"
  dstIp := "203.0.113.9"
  userName := user
  rawText := ""

theorem plain_of_bare (hpipe : '|' ∉ q.toList) (hbare : trim q.toList = q.toList) : Plain q :=
  ⟨hpipe, congrArg tokenizeHunt hbare⟩

/-! ## When the aggregations agree -/

/-- For a query without a pipe, the aggregations agree with the hunt exactly where what it finds can
be counted; with a pipe of its own, where there is nothing to count. -/
theorem hunt_aggregate_agrees_iff (lower : Lowercase) (docs : List SearchDocument) (q : String)
    (p : HuntPredicate) (f : FieldName) (hq : parseHuntQuery q = .ok p) :
    (Plain q → ∀ n, AgreesWithHunt lower.lower docs q p f n ↔ Countable lower.lower docs q p f n) ∧
      ('|' ∈ q.toList → ((∀ n, AgreesWithHunt lower.lower docs q p f n) ↔
        CountsNothing lower.lower docs q p f)) :=
  ⟨fun hplain _ => ⟨AgreesWithHunt.countable hq hplain, Countable.agreesWithHunt hq hplain⟩,
    fun hpipe => agreesWithHunt_piped_iff hq hpipe⟩

/-- The host with the most downloads is found. -/
theorem hunt_aggregate_agrees_curl :
    AgreesWithHunt asciiLowercase.lower
      [fetched "db-01" "ci", fetched "web-07" "", fetched "db-01" "ci"] "curl" (.freeText "curl")
      deviceField 1 := by
  have hq : parseHuntQuery "curl" = .ok (.freeText "curl") :=
    parseHuntQuery_word (by decide) (by decide) (by decide) (by decide)
  have hplain : Plain "curl" := plain_of_bare (by decide) (by decide)
  refine ((hunt_aggregate_agrees_iff asciiLowercase _ _ _ _ hq).1 hplain _).mpr ⟨?_, ?_, ?_⟩
  · decide
  · decide
  · unfold Distinguished
    decide

/-- Two hosts with as many downloads come in the order of the map; a user of the name is counted
with those without one; a star finds nothing, but all is counted; a pipe in the query ends it. -/
theorem hunt_aggregate_disagrees :
    let docs := [fetched "db-01" "", fetched "web-07" "(empty)"]
    let lower := asciiLowercase.lower
    (parseHuntQuery "curl" = .ok (.freeText "curl") ∧
      ¬ AgreesWithHunt lower docs "curl" (.freeText "curl") deviceField 1 ∧
      ¬ AgreesWithHunt lower docs "curl" (.freeText "curl") userField 2) ∧
    (parseHuntQuery "*" = .ok (.freeText "*") ∧
      ¬ AgreesWithHunt lower docs "*" (.freeText "*") deviceField 2) ∧
    parseHuntQuery "curl|wget" = .ok (.freeText "curl|wget") ∧
      ¬ AgreesWithHunt lower docs "curl|wget" (.freeText "curl|wget") deviceField 2 := by
  have hcurl : parseHuntQuery "curl" = .ok (.freeText "curl") :=
    parseHuntQuery_word (by decide) (by decide) (by decide) (by decide)
  have hstar : parseHuntQuery "*" = .ok (.freeText "*") :=
    parseHuntQuery_word (by decide) (by decide) (by decide) (by decide)
  have hpipe : parseHuntQuery "curl|wget" = .ok (.freeText "curl|wget") :=
    parseHuntQuery_word (by decide) (by decide) (by decide) (by decide)
  have hplain : Plain "curl" := plain_of_bare (by decide) (by decide)
  refine ⟨⟨hcurl, fun h => ?_, fun h => ?_⟩, ⟨hstar, fun h => ?_⟩, hpipe, fun h => ?_⟩
  · have hties := (AgreesWithHunt.countable hcurl hplain h).ties
    have hlate := hties ⟨"db-01", 1⟩ (by decide) ⟨"web-07", 1⟩ (by decide) (by decide) rfl
    exact absurd hlate (by decide)
  · have hempty := (AgreesWithHunt.countable hcurl hplain h).empty
    exact absurd hempty (by decide)
  · have hbare : Plain "*" := plain_of_bare (by decide) (by decide)
    have hall := (AgreesWithHunt.countable hstar hbare h).star
    exact absurd hall (by decide)
  · obtain ⟨-, r, -, hr, -⟩ := h.counts insertionOrder
    have hread : parseHuntPipe asciiLowercase.lower (countBy "curl|wget" deviceField) =
        .error "unsupported aggregation: wget | count by device_id" := by decide
    rw [huntAggregate, hread] at hr
    cases hr

end Wardex.Hunt
