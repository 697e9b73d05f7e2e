import Mathlib.Data.List.Dedup
import Wardex.Edr.Engine
import Wardex.Lib.Run

/-! Which indicators a process is judged by.  The queue of a process loses its front only, so that
it is always a stretch of the last indicators received. -/

namespace Wardex.Edr

open Wardex.Lib

variable {platform : Platform} {config : EdrBlockingConfig}

/-! ## What a process is to be judged by -/

def category (config : EdrBlockingConfig) (i : BehaviorIndicator) : String :=
  (scoreIndicator config i).category

/-- What the indicators of one category weigh together. -/
def categoryTotal (config : EdrBlockingConfig) (indicators : List BehaviorIndicator)
    (c : String) : ℚ :=
  ((indicators.filter fun i => category config i = c).map
    fun i => (scoreIndicator config i).rawScore).sum

/-- The sum of the five largest totals of a category, capped at ten. -/
def windowScore (config : EdrBlockingConfig) (indicators : List BehaviorIndicator) : ℚ :=
  let totals := (indicators.map (category config)).dedup.map (categoryTotal config indicators)
  min ((totals.insertionSort (· ≥ ·)).take 5).sum 10

/-- Of the indicators received of a process, those that are within the window of the last one: among
the last ones, and not older than it by more than the length of the window. -/
def window (config : EdrBlockingConfig) (received : List BehaviorIndicator) :
    List BehaviorIndicator :=
  match received.getLast? with
  | none => []
  | some last => (received.rtake config.windowSize).filter fun i =>
      decide (last.timestampMs - config.windowMs ≤ i.timestampMs)

/-- The indicators of a process that is not on the allowlist, in the order they were received. -/
def receivedOf (platform : Platform) (config : EdrBlockingConfig) (pid : ℕ)
    (history : List BehaviorIndicator) : List BehaviorIndicator :=
  history.filter fun i =>
    decide (i.pid = pid) && !processMatchesAllowlist platform i config.allowlist

theorem lookup_categoryScores (config : EdrBlockingConfig) (indicators : List BehaviorIndicator)
    (c : String) :
    (categoryScores config indicators).lookup c =
      if c ∈ (indicators.map (category config)).dedup then
        some (categoryTotal config indicators c)
      else none := by
  induction indicators using List.reverseRecOn with
  | nil => rfl
  | append_singleton indicators i ih =>
    have hmem : c ∈ ((indicators ++ [i]).map (category config)).dedup ↔
        c ∈ (indicators.map (category config)).dedup ∨ c = category config i := by
      simp only [List.mem_dedup, List.map_append, List.map_singleton, List.mem_append,
        List.mem_singleton]
    have htotal : categoryTotal config (indicators ++ [i]) c = categoryTotal config indicators c +
        if category config i = c then (scoreIndicator config i).rawScore else 0 := by
      rw [categoryTotal, List.filter_append, List.map_append, List.sum_append, categoryTotal]
      split_ifs with hc <;> simp [hc]
    rw [categoryScores, List.foldl_concat, ← categoryScores, htotal]
    -- a category seen for the first time starts from zero, which is its empty sum
    by_cases hc : c = category config i
    · subst hc
      rw [if_pos (hmem.mpr (.inr rfl)), if_pos rfl]
      refine (AList.lookup_insert _).trans (congrArg some (congrArg (· + _) ?_))
      show ((categoryScores config indicators).lookup (category config i)).getD 0 = _
      rw [ih]
      split_ifs with hold
      · rfl
      · refine (List.sum_eq_zero ?_).symm
        intro w hw
        obtain ⟨j, hj, -⟩ := List.mem_map.mp hw
        obtain ⟨hj, hcategory⟩ := List.mem_filter.mp hj
        refine absurd (List.mem_dedup.mpr ?_) hold
        exact of_decide_eq_true hcategory ▸ List.mem_map_of_mem hj
    · have hold : c ∈ ((indicators ++ [i]).map (category config)).dedup ↔
          c ∈ (indicators.map (category config)).dedup := hmem.trans (or_iff_left hc)
      rw [if_neg (Ne.symm hc), add_zero]
      simp only [hold]
      exact (AList.lookup_insert_ne hc).trans ih

/-- The scores that the engine adds up and sorts are the totals of the categories. -/
theorem computeProcessScore_eq (config : EdrBlockingConfig) (indicators : List BehaviorIndicator) :
    computeProcessScore config indicators = windowScore config indicators := by
  have hvalues := HashTable.values_perm (List.nodup_dedup _)
    (lookup_categoryScores config indicators)
  have hsorted : (categoryScores config indicators).values.insertionSort (· ≥ ·) =
      ((indicators.map (category config)).dedup.map (categoryTotal config indicators)).insertionSort
        (· ≥ ·) := by
    apply List.Perm.eq_of_pairwise' (r := (· ≥ ·))
    · exact List.pairwise_insertionSort _ _
    · exact List.pairwise_insertionSort _ _
    · exact (List.perm_insertionSort _ _).trans (hvalues.trans (List.perm_insertionSort _ _).symm)
  rw [computeProcessScore, hsorted]
  rfl

namespace EdrBlockingEngine

variable {e : EdrBlockingEngine} {x : BehaviorIndicator} {fuel : ℕ}
  {r : EdrBlockingEngine × Option BlockingDecision}

/-- The indicators that a process holds. -/
def queue (e : EdrBlockingEngine) (pid : ℕ) : List BehaviorIndicator :=
  ((e.processes pid).map ProcessState.indicators).getD []

theorem indicators_stateFor (e : EdrBlockingEngine) (x : BehaviorIndicator) :
    (e.stateFor x).indicators = e.queue x.pid := by
  rw [stateFor, queue]
  cases e.processes x.pid <;> rfl

theorem evaluate_allowlisted (h : processMatchesAllowlist platform x e.config.allowlist = true)
    (fuel : ℕ) :
    e.evaluate platform fuel x = some ({ e with totalIndicators := e.totalIndicators + 1 }, none) :=
  if_pos h

/-- An indicator is judged by what both evictions leave. -/
theorem evaluate_eq_some (h : processMatchesAllowlist platform x e.config.allowlist = false) :
    e.evaluate platform fuel x = some r ↔ ∃ recent kept,
      popWhile (expired e.config x) fuel (e.queue x.pid) = some recent ∧
      popWhile (full e.config) fuel recent = some kept ∧
      { e with totalIndicators := e.totalIndicators + 1 }.judge x kept = r := by
  rw [← indicators_stateFor]
  unfold evaluate
  dsimp only
  rw [if_neg (Bool.eq_false_iff.mp h), Option.bind_eq_bind, Option.bind_eq_some_iff]
  constructor
  · rintro ⟨recent, hrecent, hrest⟩
    obtain ⟨kept, hkept, hjudge⟩ := Option.bind_eq_some_iff.mp hrest
    exact ⟨recent, kept, hrecent, hkept, Option.some.inj hjudge⟩
  · rintro ⟨recent, kept, hrecent, hkept, rfl⟩
    exact ⟨recent, hrecent, Option.bind_eq_some_iff.mpr ⟨kept, hkept, rfl⟩⟩

theorem processes_record (e : EdrBlockingEngine) (decision : Option BlockingDecision) :
    (e.record decision).processes = e.processes := by
  cases decision <;> rfl

theorem config_record (e : EdrBlockingEngine) (decision : Option BlockingDecision) :
    (e.record decision).config = e.config := by
  cases decision <;> rfl

theorem config_judge (e : EdrBlockingEngine) (x : BehaviorIndicator)
    (kept : List BehaviorIndicator) : (e.judge x kept).1.config = e.config :=
  config_record _ _

/-- The state of the process after it was judged. -/
theorem processes_judge (e : EdrBlockingEngine) (x : BehaviorIndicator)
    (kept : List BehaviorIndicator) :
    (e.judge x kept).1.processes = e.processes.insert x.pid { e.stateFor x with
      indicators := kept ++ [x]
      lastSeenMs := x.timestampMs
      cumulativeScore := computeProcessScore e.config (kept ++ [x]) } :=
  processes_record _ _

theorem queue_judge (e : EdrBlockingEngine) (x : BehaviorIndicator)
    (kept : List BehaviorIndicator) (pid : ℕ) :
    (e.judge x kept).1.queue pid = if pid = x.pid then kept ++ [x] else e.queue pid := by
  rw [queue, processes_judge, KeyMap.insert_apply]
  split_ifs <;> rfl

theorem config_evaluate (h : e.evaluate platform fuel x = some r) : r.1.config = e.config := by
  cases hallow : processMatchesAllowlist platform x e.config.allowlist with
  | true =>
    rw [evaluate_allowlisted hallow] at h
    rw [← Option.some.inj h]
  | false =>
    obtain ⟨recent, kept, -, -, rfl⟩ := (evaluate_eq_some hallow).mp h
    exact config_judge _ _ _

/-! ## Eviction -/

/-- The engines that calls which return make of a new one. -/
inductive Reachable (platform : Platform) (config : EdrBlockingConfig) : EdrBlockingEngine → Prop
  | new : Reachable platform config (new config)
  | evaluate {e : EdrBlockingEngine} {fuel : ℕ} {x : BehaviorIndicator}
      {r : EdrBlockingEngine × Option BlockingDecision} (h : Reachable platform config e)
      (hr : e.evaluate platform fuel x = some r) : Reachable platform config r.1
  | gc {e : EdrBlockingEngine} (h : Reachable platform config e) (now maxAgeMs : ℕ) :
      Reachable platform config (e.gc now maxAgeMs)

/-- No process holds more indicators than the window has room for, which is one at least. -/
def Bounded (e : EdrBlockingEngine) : Prop :=
  ∀ pid state, e.processes pid = some state →
    state.indicators.length ≤ max e.config.windowSize 1

theorem full_eq (h : 1 ≤ config.windowSize) :
    full config = fun q => decide (config.windowSize - 1 + 1 ≤ q.length) := by
  funext q
  rw [full, Nat.sub_add_cancel h]

theorem popWhile_full (h : 1 ≤ config.windowSize) {q : List BehaviorIndicator}
    (hfuel : q.length ≤ fuel) :
    popWhile (full config) fuel q = some (q.rtake (config.windowSize - 1)) := by
  rw [full_eq h]
  exact popWhile_length hfuel

/-- What the second eviction leaves has room for one more. -/
theorem eq_rtake_of_popWhile_full (h : 1 ≤ config.windowSize) {q kept : List BehaviorIndicator}
    (hkept : popWhile (full config) fuel q = some kept) :
    kept = q.rtake (config.windowSize - 1) :=
  popWhile_unique hkept (popWhile_full h (Nat.le_refl _))

/-- Without room for an indicator the second eviction goes on when the queue is empty. -/
theorem popWhile_full_eq_none (h : config.windowSize = 0) (fuel : ℕ)
    (q : List BehaviorIndicator) : popWhile (full config) fuel q = none := by
  refine popWhile_eq_none (fun q => decide_eq_true ?_) fuel q
  rw [h]
  exact Nat.zero_le _

theorem Bounded.evaluate (hb : e.Bounded) (h : e.evaluate platform fuel x = some r) :
    r.1.Bounded := by
  cases hallow : processMatchesAllowlist platform x e.config.allowlist with
  | true =>
    rw [evaluate_allowlisted hallow] at h
    rw [← Option.some.inj h]
    exact hb
  | false =>
    obtain ⟨recent, kept, -, hkept, rfl⟩ := (evaluate_eq_some hallow).mp h
    intro pid state hstate
    rw [processes_judge, KeyMap.insert_apply] at hstate
    rw [config_judge]
    split_ifs at hstate with hpid
    · rw [← Option.some.inj hstate]
      -- without room the second eviction does not come to an end, and there is nothing to show
      rcases Nat.eq_zero_or_pos e.config.windowSize with hzero | hpos
      · rw [popWhile_full_eq_none hzero] at hkept
        cases hkept
      · rw [eq_rtake_of_popWhile_full hpos hkept]
        show (recent.rtake (e.config.windowSize - 1) ++ [x]).length ≤ max e.config.windowSize 1
        rw [List.length_append, List.length_singleton, length_rtake]
        omega
    · exact hb pid state hstate

theorem Bounded.gc (hb : e.Bounded) (now maxAgeMs : ℕ) : (e.gc now maxAgeMs).Bounded :=
  fun pid state hstate => hb pid state (Option.eq_some_of_filter_eq_some hstate)

theorem Reachable.bounded (h : Reachable platform config e) : e.config = config ∧ e.Bounded := by
  induction h with
  | new => exact ⟨rfl, fun _ _ hstate => nomatch hstate⟩
  | evaluate _ hr ih => exact ⟨(config_evaluate hr).trans ih.1, ih.2.evaluate hr⟩
  | gc _ now maxAgeMs ih => exact ⟨ih.1, ih.2.gc now maxAgeMs⟩

/-- The front that is older than the window is taken off. -/
theorem popWhile_expired (config : EdrBlockingConfig) (x : BehaviorIndicator)
    {q : List BehaviorIndicator} (hfuel : q.length ≤ fuel) :
    popWhile (expired config x) fuel q =
      some (q.dropWhile fun i => decide (i.timestampMs < x.timestampMs - config.windowMs)) :=
  popWhile_head _ hfuel

theorem exists_evaluate (platform : Platform) (h : 1 ≤ e.config.windowSize)
    (hfuel : (e.queue x.pid).length ≤ fuel) : ∃ r, e.evaluate platform fuel x = some r := by
  cases hallow : processMatchesAllowlist platform x e.config.allowlist with
  | true => exact ⟨_, evaluate_allowlisted hallow fuel⟩
  | false =>
    have hrecent := popWhile_expired e.config x hfuel
    have hkept := popWhile_full h ((popWhile_suffix hrecent).length_le.trans hfuel)
    exact ⟨_, (evaluate_eq_some hallow).mpr ⟨_, _, hrecent, hkept, rfl⟩⟩

/-- Without room for an indicator a call on a process that is judged does not return. -/
theorem evaluate_eq_none (h : e.config.windowSize = 0)
    (hallow : processMatchesAllowlist platform x e.config.allowlist = false) (fuel : ℕ) :
    e.evaluate platform fuel x = none := by
  by_contra hsome
  obtain ⟨r, hr⟩ := Option.ne_none_iff_exists'.mp hsome
  obtain ⟨recent, kept, -, hkept, -⟩ := (evaluate_eq_some hallow).mp hr
  rw [popWhile_full_eq_none h] at hkept
  cases hkept

/-- A call returns and leaves every process within its bound if and only if the window has room for
an indicator or the process is on the allowlist. -/
theorem evaluate_returns_iff (h : Reachable platform config e) (x : BehaviorIndicator) :
    (∃ fuel r, e.evaluate platform fuel x = some r ∧ r.1.Bounded) ↔
      1 ≤ config.windowSize ∨ processMatchesAllowlist platform x config.allowlist = true := by
  obtain ⟨rfl, hbounded⟩ := h.bounded
  constructor
  · rintro ⟨fuel, r, hr, -⟩
    by_contra hnot
    obtain ⟨hzero, hallow⟩ := not_or.mp hnot
    have hsize := Nat.lt_one_iff.mp (Nat.lt_of_not_le hzero)
    rw [evaluate_eq_none hsize (Bool.eq_false_iff.mpr hallow)] at hr
    cases hr
  · rintro (hpos | hallow)
    · obtain ⟨r, hr⟩ := exists_evaluate platform hpos (Nat.le_refl (e.queue x.pid).length)
      exact ⟨_, r, hr, hbounded.evaluate hr⟩
    · exact ⟨0, _, evaluate_allowlisted hallow 0, hbounded⟩

def unixPlatform : Platform := ⟨false, some⟩

def indicatorOf (pid timestampMs : ℕ) (indicator : IndicatorType) : BehaviorIndicator :=
  ⟨pid, "/usr/bin/app", 1, "root", indicator, timestampMs, KeyMap.empty⟩

def noRoom : EdrBlockingConfig := { EdrBlockingConfig.default with windowSize := 0 }

/-- A call on an engine without room, with an indicator that weighs little. -/
theorem evaluate_returns_iff_noRoom :
    (∃ fuel r, (new noRoom).evaluate unixPlatform fuel
      (indicatorOf 7 0 (.syscallSequence ["read"])) = some r ∧ r.1.Bounded) ↔
      1 ≤ noRoom.windowSize ∨ processMatchesAllowlist unixPlatform
        (indicatorOf 7 0 (.syscallSequence ["read"])) noRoom.allowlist = true :=
  evaluate_returns_iff .new _

/-- It does not return. -/
theorem noRoom_never_returns :
    ¬ ∀ (platform : Platform) (config : EdrBlockingConfig) (e : EdrBlockingEngine)
      (x : BehaviorIndicator), Reachable platform config e →
        ∃ fuel r, e.evaluate platform fuel x = some r ∧ r.1.Bounded := by
  intro h
  obtain ⟨fuel, r, hr, -⟩ :=
    h unixPlatform noRoom (new noRoom) (indicatorOf 7 0 (.syscallSequence ["read"])) .new
  rw [evaluate_eq_none rfl rfl] at hr
  cases hr

/-! ## The window -/

/-- The calls with these indicators, one after the other. -/
def evaluateAll (platform : Platform) (fuel : ℕ) :
    EdrBlockingEngine → List BehaviorIndicator → Option EdrBlockingEngine
  | e, [] => some e
  | e, x :: xs => (e.evaluate platform fuel x).bind fun r => evaluateAll platform fuel r.1 xs

/-- After the history, the indicator is judged by exactly the indicators within its window. -/
def ScoredExactly (platform : Platform) (config : EdrBlockingConfig)
    (history : List BehaviorIndicator) (x : BehaviorIndicator) : Prop :=
  processMatchesAllowlist platform x config.allowlist = false →
    ∃ fuel e r state, evaluateAll platform fuel (new config) history = some e ∧
      e.evaluate platform fuel x = some r ∧ r.1.processes x.pid = some state ∧
      state.indicators = window config (receivedOf platform config x.pid (history ++ [x])) ∧
      state.cumulativeScore = windowScore config state.indicators ∧
      ∀ decision ∈ r.2, decision.score = state.cumulativeScore

/-- What is in the window of an indicator is what is left of the window before it, at its end. -/
structure Advances (config : EdrBlockingConfig) (received : List BehaviorIndicator)
    (x : BehaviorIndicator) : Prop where
  behind : (window config received).Pairwise fun a b =>
    x.timestampMs - config.windowMs ≤ a.timestampMs →
      x.timestampMs - config.windowMs ≤ b.timestampMs
  back : ∀ a ∈ received.rtake (config.windowSize - 1),
    x.timestampMs - config.windowMs ≤ a.timestampMs → a ∈ window config received

/-- The window of the indicator's process advances. -/
def WindowAdvances (platform : Platform) (config : EdrBlockingConfig)
    (history : List BehaviorIndicator) (x : BehaviorIndicator) : Prop :=
  processMatchesAllowlist platform x config.allowlist = false →
    Advances config (receivedOf platform config x.pid history) x

theorem window_snoc (h : 1 ≤ config.windowSize) (received : List BehaviorIndicator)
    (x : BehaviorIndicator) :
    window config (received ++ [x]) = (received.rtake (config.windowSize - 1)).filter (fun i =>
      decide (x.timestampMs - config.windowMs ≤ i.timestampMs)) ++ [x] := by
  have hx : decide (x.timestampMs - config.windowMs ≤ x.timestampMs) = true :=
    decide_eq_true (Nat.sub_le _ _)
  have hsize : config.windowSize = config.windowSize - 1 + 1 := (Nat.sub_add_cancel h).symm
  rw [window, List.getLast?_concat]
  dsimp only
  rw [hsize, List.rtake_concat_succ, List.filter_append, List.filter_singleton, hx]
  rfl

/-- A window selects from the last indicators. -/
theorem window_eq_filter (config : EdrBlockingConfig) (received : List BehaviorIndicator) :
    ∃ p, window config received = (received.rtake config.windowSize).filter p := by
  unfold window
  split
  · next h =>
    refine ⟨fun _ => false, ?_⟩
    rw [List.getLast?_eq_none_iff.mp h, List.rtake, List.drop_nil]
    rfl
  · exact ⟨_, rfl⟩

/-- In order of time every window advances. -/
theorem advances_of_pairwise {received : List BehaviorIndicator}
    (h : (received ++ [x]).Pairwise fun a b => a.timestampMs ≤ b.timestampMs) :
    Advances config received x := by
  obtain ⟨hreceived, -, hlast⟩ := List.pairwise_append.mp h
  obtain ⟨p, hp⟩ := window_eq_filter config received
  refine ⟨?_, fun a ha hfresh => ?_⟩
  · rw [hp]
    refine ((hreceived.sublist (rtake_suffix _ _).sublist).filter p).imp fun hab ha => ?_
    exact ha.trans hab
  · have hmem : a ∈ received := (rtake_suffix _ _).subset ha
    unfold window
    cases hget : received.getLast? with
    | none =>
      rw [List.getLast?_eq_none_iff.mp hget] at hmem
      exact absurd hmem List.not_mem_nil
    | some last =>
      have hle : last.timestampMs ≤ x.timestampMs :=
        hlast last (List.mem_of_getLast? hget) x List.mem_cons_self
      refine List.mem_filter.mpr ⟨?_, decide_eq_true ?_⟩
      · rw [← rtake_rtake (Nat.sub_le config.windowSize 1)] at ha
        exact (rtake_suffix _ _).subset ha
      · exact (Nat.sub_le_sub_right hle _).trans hfresh

theorem receivedOf_snoc (platform : Platform) (config : EdrBlockingConfig) (pid : ℕ)
    (history : List BehaviorIndicator) (x : BehaviorIndicator) :
    receivedOf platform config pid (history ++ [x]) = receivedOf platform config pid history ++
      if x.pid = pid ∧ processMatchesAllowlist platform x config.allowlist = false then [x]
      else [] := by
  rw [receivedOf, List.filter_append, List.filter_singleton, receivedOf]
  congr 1
  cases processMatchesAllowlist platform x config.allowlist <;> by_cases hpid : x.pid = pid <;>
    simp [hpid]

/-- What a call that returns leaves of the queues. -/
theorem queue_evaluate (h : 1 ≤ e.config.windowSize) (hr : e.evaluate platform fuel x = some r)
    (pid : ℕ) :
    r.1.queue pid =
      if x.pid = pid ∧ processMatchesAllowlist platform x e.config.allowlist = false then
        ((e.queue pid).dropWhile fun i =>
          decide (i.timestampMs < x.timestampMs - e.config.windowMs)).rtake
            (e.config.windowSize - 1) ++ [x]
      else e.queue pid := by
  cases hallow : processMatchesAllowlist platform x e.config.allowlist with
  | true =>
    rw [evaluate_allowlisted hallow] at hr
    rw [← Option.some.inj hr, if_neg (by simp)]
    rfl
  | false =>
    obtain ⟨recent, kept, hrecent, hkept, rfl⟩ := (evaluate_eq_some hallow).mp hr
    rw [queue_judge, eq_rtake_of_popWhile_full h hkept,
      popWhile_unique hrecent (popWhile_expired e.config x (Nat.le_refl _))]
    by_cases hpid : x.pid = pid
    · rw [if_pos hpid.symm, if_pos ⟨hpid, rfl⟩, hpid]
    · rw [if_neg (Ne.symm hpid), if_neg fun hboth => hpid hboth.1]
      rfl

/-- An engine that holds of every process the window of what was received of it. -/
structure Tracks (platform : Platform) (config : EdrBlockingConfig)
    (history : List BehaviorIndicator) (e : EdrBlockingEngine) : Prop where
  sameConfig : e.config = config
  held : ∀ pid, e.queue pid = window config (receivedOf platform config pid history)
  stretch : ∀ pid, e.queue pid <:+ receivedOf platform config pid history

theorem tracks_new (platform : Platform) (config : EdrBlockingConfig) :
    Tracks platform config [] (new config) := ⟨rfl, fun _ => rfl, fun _ => List.suffix_refl []⟩

theorem Tracks.length_le {history : List BehaviorIndicator} (ht : Tracks platform config history e)
    (pid : ℕ) : (e.queue pid).length ≤ config.windowSize := by
  obtain ⟨p, hp⟩ := window_eq_filter config (receivedOf platform config pid history)
  rw [ht.held, hp]
  exact (List.length_filter_le _ _).trans ((length_rtake _ _).trans_le (Nat.min_le_left _ _))

/-- The queue is the window again if and only if the window advances. -/
theorem Tracks.queue_eq_window_iff {history : List BehaviorIndicator}
    (ht : Tracks platform config history e) (h : 1 ≤ config.windowSize)
    (hallow : processMatchesAllowlist platform x config.allowlist = false)
    (hr : e.evaluate platform fuel x = some r) :
    r.1.queue x.pid = window config (receivedOf platform config x.pid (history ++ [x])) ↔
      Advances config (receivedOf platform config x.pid history) x := by
  obtain ⟨rfl, hheld, hstretch⟩ := ht
  have hold : (fun i : BehaviorIndicator =>
      decide (i.timestampMs < x.timestampMs - e.config.windowMs)) = fun i =>
        !decide (x.timestampMs - e.config.windowMs ≤ i.timestampMs) := by
    funext i
    rw [← decide_not]
    simp only [Nat.not_le]
  obtain ⟨p, hp⟩ := window_eq_filter e.config (receivedOf platform e.config x.pid history)
  -- both end with the indicator; before it is what eviction leaves, and what the cutoff selects
  rw [queue_evaluate h hr, receivedOf_snoc, if_pos ⟨rfl, hallow⟩, if_pos ⟨rfl, hallow⟩,
    window_snoc h, List.append_left_inj, hold]
  rw [← Nat.sub_add_cancel h] at hp
  rw [evict_eq_iff ((hheld x.pid).trans hp) (hstretch x.pid), hheld x.pid]
  simp only [decide_eq_true_iff]
  exact ⟨fun hboth => ⟨hboth.1, hboth.2⟩, fun hadvances => ⟨hadvances.behind, hadvances.back⟩⟩

theorem Tracks.snoc {history : List BehaviorIndicator} (ht : Tracks platform config history e)
    (h : 1 ≤ config.windowSize)
    (hwindow : processMatchesAllowlist platform x config.allowlist = false →
      r.1.queue x.pid = window config (receivedOf platform config x.pid (history ++ [x])))
    (hr : e.evaluate platform fuel x = some r) :
    Tracks platform config (history ++ [x]) r.1 := by
  obtain ⟨rfl, hheld, hstretch⟩ := ht
  refine ⟨config_evaluate hr, fun pid => ?_, fun pid => ?_⟩
  · by_cases hpid : x.pid = pid ∧
        processMatchesAllowlist platform x e.config.allowlist = false
    · rw [← hpid.1, hwindow hpid.2]
    · rw [queue_evaluate h hr, if_neg hpid, hheld, receivedOf_snoc, if_neg hpid, List.append_nil]
  · rw [queue_evaluate h hr, receivedOf_snoc]
    split_ifs with hpid
    · obtain ⟨front, hfront⟩ :=
        ((rtake_suffix _ _).trans (List.dropWhile_suffix _)).trans (hstretch pid)
      exact ⟨front, by rw [← List.append_assoc, hfront]⟩
    · rw [List.append_nil]
      exact hstretch pid

/-- The state of a process that was judged, and the decision on it. -/
theorem state_evaluate (hallow : processMatchesAllowlist platform x e.config.allowlist = false)
    (hr : e.evaluate platform fuel x = some r) :
    ∃ state, r.1.processes x.pid = some state ∧ state.indicators = r.1.queue x.pid ∧
      state.cumulativeScore = windowScore e.config state.indicators ∧
      ∀ decision ∈ r.2, decision.score = state.cumulativeScore := by
  obtain ⟨recent, kept, -, -, rfl⟩ := (evaluate_eq_some hallow).mp hr
  have hprocesses := processes_judge { e with totalIndicators := e.totalIndicators + 1 } x kept
  have hstate := (congrFun hprocesses x.pid).trans (KeyMap.insert_self _ _ _)
  refine ⟨_, hstate, ?_, ?_, fun decision hdecision => ?_⟩
  · rw [queue_judge, if_pos rfl]
  · exact computeProcessScore_eq e.config (kept ++ [x])
  · unfold judge decide? at hdecision
    dsimp only at hdecision
    split_ifs at hdecision <;> cases hdecision
    all_goals rfl

theorem evaluate_unique {fuel' : ℕ} {r' : EdrBlockingEngine × Option BlockingDecision}
    (hr : e.evaluate platform fuel x = some r) (hr' : e.evaluate platform fuel' x = some r') :
    r = r' := by
  cases hallow : processMatchesAllowlist platform x e.config.allowlist with
  | true =>
    rw [evaluate_allowlisted hallow] at hr hr'
    exact Option.some.inj (hr.symm.trans hr')
  | false =>
    obtain ⟨recent, kept, hrecent, hkept, rfl⟩ := (evaluate_eq_some hallow).mp hr
    obtain ⟨recent', kept', hrecent', hkept', rfl⟩ := (evaluate_eq_some hallow).mp hr'
    obtain rfl := popWhile_unique hrecent hrecent'
    rw [popWhile_unique hkept hkept']

theorem evaluateAll_unique {fuel' : ℕ} {xs : List BehaviorIndicator} {e₁ e₂ : EdrBlockingEngine}
    (h : evaluateAll platform fuel e xs = some e₁)
    (h' : evaluateAll platform fuel' e xs = some e₂) : e₁ = e₂ := by
  induction xs generalizing e with
  | nil => exact Option.some.inj (h.symm.trans h')
  | cons x xs ih =>
    obtain ⟨r, hr, hrest⟩ := Option.bind_eq_some_iff.mp h
    obtain ⟨r', hr', hrest'⟩ := Option.bind_eq_some_iff.mp h'
    obtain rfl := evaluate_unique hr hr'
    exact ih hrest hrest'

theorem evaluateAll_snoc {xs : List BehaviorIndicator} {e₁ : EdrBlockingEngine}
    (h : evaluateAll platform fuel e xs = some e₁) (hr : e₁.evaluate platform fuel x = some r) :
    evaluateAll platform fuel e (xs ++ [x]) = some r.1 := by
  induction xs generalizing e with
  | nil =>
    obtain rfl := Option.some.inj h
    rw [List.nil_append, evaluateAll, hr]
    rfl
  | cons y xs ih =>
    obtain ⟨r', hr', hrest⟩ := Option.bind_eq_some_iff.mp h
    rw [List.cons_append, evaluateAll, hr']
    exact ih hrest

/-- What holds after a history in which every window advanced: room in the queues for as many calls
of the first eviction as the window has room for. -/
def Ready (platform : Platform) (config : EdrBlockingConfig) (history : List BehaviorIndicator) :
    Prop :=
  ∃ e, evaluateAll platform config.windowSize (new config) history = some e ∧
    Tracks platform config history e

/-- The step: an indicator is scored exactly if and only if the window advances, and then the next
one finds an engine that tracks the windows. -/
theorem Ready.step (h : 1 ≤ config.windowSize) {history : List BehaviorIndicator}
    (hready : Ready platform config history) (x : BehaviorIndicator) :
    (ScoredExactly platform config history x ↔ WindowAdvances platform config history x) ∧
      (WindowAdvances platform config history x → Ready platform config (history ++ [x])) := by
  obtain ⟨e, he, ht⟩ := hready
  have hsize : 1 ≤ e.config.windowSize := ht.sameConfig ▸ h
  obtain ⟨r, hr⟩ := exists_evaluate platform hsize (ht.length_le x.pid)
  have hiff := fun hallow => ht.queue_eq_window_iff h hallow hr
  refine ⟨forall_congr' fun hallow => ?_, fun hadvances => ?_⟩
  · rw [← hiff hallow]
    have hallow' : processMatchesAllowlist platform x e.config.allowlist = false :=
      ht.sameConfig ▸ hallow
    constructor
    -- a run with any other fuel ends in the same engine
    · rintro ⟨fuel, e', r', state, he', hr', hstate, hindicators, -, -⟩
      obtain rfl := evaluateAll_unique he he'
      obtain rfl := evaluate_unique hr hr'
      obtain ⟨state', hstate', hqueue, -, -⟩ := state_evaluate hallow' hr
      obtain rfl := Option.some.inj (hstate.symm.trans hstate')
      rw [← hqueue, hindicators]
    · intro hqueue
      obtain ⟨state, hstate, hindicators, hscore, hdecision⟩ := state_evaluate hallow' hr
      rw [ht.sameConfig] at hscore
      exact ⟨config.windowSize, e, r, state, he, hr, hstate, hindicators.trans hqueue, hscore,
        hdecision⟩
  · exact ⟨r.1, evaluateAll_snoc he hr,
      ht.snoc h (fun hallow => (hiff hallow).mpr (hadvances hallow)) hr⟩

/-- Every indicator of a sequence is scored by exactly its window if and only if every window
advances: nothing that is too old stands behind something that is not, and nothing comes back. -/
theorem scored_exactly_iff (platform : Platform) (config : EdrBlockingConfig)
    (h : 1 ≤ config.windowSize) (indicators : List BehaviorIndicator) :
    Along (fun history x => history ++ [x]) (ScoredExactly platform config) [] indicators ↔
      Along (fun history x => history ++ [x]) (WindowAdvances platform config) [] indicators := by
  have hnew : Ready platform config [] := ⟨new config, rfl, tracks_new platform config⟩
  constructor
  -- the invariant is carried by either of the two conditions, since a step makes them equivalent
  · refine along_of_invariant (fun history x hready hexact => ?_) (fun history x hready => ?_) hnew
    · exact (hready.step h x).2 ((hready.step h x).1.mp hexact)
    · exact (hready.step h x).1.mp
  · exact along_of_invariant (fun history x hready => (hready.step h x).2)
      (fun history x hready => (hready.step h x).1.mpr) hnew

def ropChain : BehaviorIndicator := indicatorOf 7 100000 (.memoryAnomaly .ropChain 1)

/-- Shellcode that was seen at ten seconds and is reported late. -/
def shellcode : BehaviorIndicator := indicatorOf 7 10000 (.memoryAnomaly .shellcodeInjection 1)

def fileless : BehaviorIndicator := indicatorOf 7 130000 (.filelessExecution 0 2000000)

theorem scored_exactly_iff_late :
    Along (fun history x => history ++ [x]) (ScoredExactly unixPlatform .default) []
        [ropChain, shellcode, fileless] ↔
      Along (fun history x => history ++ [x]) (WindowAdvances unixPlatform .default) []
        [ropChain, shellcode, fileless] :=
  scored_exactly_iff unixPlatform .default (by decide) _

/-- The late report is two minutes old when the last indicator comes, and is counted with it. -/
theorem late_report_counts :
    ¬ ∀ (platform : Platform) (config : EdrBlockingConfig) (indicators : List BehaviorIndicator),
      1 ≤ config.windowSize →
        Along (fun history x => history ++ [x]) (ScoredExactly platform config) [] indicators := by
  intro h
  have hsize : 1 ≤ EdrBlockingConfig.default.windowSize := by decide
  obtain ⟨-, -, hexact, -⟩ := h unixPlatform .default [ropChain, shellcode, fileless] hsize
  have hnew : Ready unixPlatform .default [] :=
    ⟨new .default, rfl, tracks_new unixPlatform .default⟩
  have hfirst : WindowAdvances unixPlatform .default [] ropChain := fun _ => by
    refine advances_of_pairwise ?_
    exact List.pairwise_singleton _ _
  have hsecond : WindowAdvances unixPlatform .default [ropChain] shellcode := fun _ =>
    ⟨List.pairwise_singleton _ _, fun a ha _ => ha⟩
  have hready := ((hnew.step hsize _).2 hfirst).step hsize shellcode |>.2 hsecond
  have hadvances := (hready.step hsize fileless).1.mp hexact rfl
  have hpair := List.pairwise_cons.mp hadvances.behind
  exact absurd (hpair.1 shellcode List.mem_cons_self (by decide)) (by decide)

/-- With it the process is killed; without it, it would not even be suspended. -/
example :
    (((evaluateAll unixPlatform 3 (new .default) [ropChain, shellcode]).bind fun e =>
      (e.evaluate unixPlatform 3 fileless).bind Prod.snd).map BlockingDecision.action) =
        some .kill ∧
      windowScore .default [ropChain, fileless] < EdrBlockingConfig.default.blockThreshold := by
  decide +kernel

end EdrBlockingEngine

end Wardex.Edr
