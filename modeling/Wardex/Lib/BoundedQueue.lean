import Mathlib.Data.List.Basic
import Mathlib.Data.List.DropRight

/-! Queues of bounded length, which keep the newest elements, and what is left in a queue of a
snapshot taken of it.  Elements leave at the front as long as a condition on the queue holds;
nothing leaves an empty queue, whatever the condition says. -/

namespace Wardex.Lib

variable {α : Type*}

/-- Takes elements off the front while there are more than `limit`, counting them. -/
def popExcess (limit : Nat) : List α → Nat → List α × Nat
  | [], count => ([], count)
  | a :: q, count =>
    if (a :: q).length > limit then popExcess limit q (count + 1) else (a :: q, count)

theorem popExcess_eq (limit : Nat) (q : List α) (count : Nat) :
    popExcess limit q count = (q.rtake limit, count + (q.length - limit)) := by
  induction q generalizing count with
  | nil => simp [popExcess]
  | cons a q ih =>
    rw [popExcess]
    split_ifs with hlong
    · rw [ih]
      have hlength : (a :: q).length - limit = (q.length - limit) + 1 := by
        rw [List.length_cons] at hlong ⊢
        omega
      rw [List.rtake, List.rtake, hlength, List.drop_succ_cons, Nat.add_assoc, Nat.add_comm 1]
    · rw [List.rtake, Nat.sub_eq_zero_of_le (Nat.le_of_not_lt hlong)]
      rfl

theorem length_rtake (limit : Nat) (q : List α) : (q.rtake limit).length = min limit q.length := by
  rw [List.rtake, List.length_drop]
  omega

theorem rtake_suffix (limit : Nat) (q : List α) : q.rtake limit <:+ q := List.drop_suffix ..

theorem rtake_rtake {m n : Nat} (h : m ≤ n) (q : List α) : (q.rtake n).rtake m = q.rtake m := by
  rw [List.rtake, List.rtake, List.rtake, List.drop_drop, List.length_drop]
  congr 1
  omega

/-- Only the newest elements matter for those kept after one more. -/
theorem rtake_snoc (limit : Nat) (q : List α) (a : α) :
    (q.rtake limit ++ [a]).rtake limit = (q ++ [a]).rtake limit := by
  cases limit with
  | zero => rw [List.rtake_zero, List.rtake_zero]
  | succ n => rw [List.rtake_concat_succ, List.rtake_concat_succ, rtake_rtake (Nat.le_succ n)]

/-- Takes elements off the front while the condition holds. -/
def popWhile (cond : List α → Bool) : ℕ → List α → Option (List α)
  | 0, q => if cond q then none else some q
  | fuel + 1, q => if cond q then popWhile cond fuel q.tail else some q

section

variable {cond : List α → Bool} {fuel limit : ℕ} {q r : List α}

theorem popWhile_of_false (h : cond q = false) (fuel : ℕ) : popWhile cond fuel q = some q := by
  cases fuel <;> exact if_neg (Bool.eq_false_iff.mp h)

theorem popWhile_succ (h : cond q = true) (fuel : ℕ) :
    popWhile cond (fuel + 1) q = popWhile cond fuel q.tail := if_pos h

theorem popWhile_zero (h : cond q = true) : popWhile cond 0 q = none := if_pos h

/-- What is left is the queue without a part of its front. -/
theorem popWhile_suffix (h : popWhile cond fuel q = some r) : r <:+ q := by
  induction fuel generalizing q with
  | zero =>
    cases hq : cond q with
    | true =>
      rw [popWhile_zero hq] at h
      cases h
    | false =>
      rw [popWhile_of_false hq] at h
      exact Option.some.inj h ▸ List.suffix_refl q
  | succ fuel ih =>
    cases hq : cond q with
    | true => exact (ih (popWhile_succ hq fuel ▸ h)).trans (List.tail_suffix q)
    | false =>
      rw [popWhile_of_false hq] at h
      exact Option.some.inj h ▸ List.suffix_refl q

/-- A condition that an empty queue meets holds forever. -/
theorem popWhile_eq_none (h : ∀ q, cond q = true) (fuel : ℕ) (q : List α) :
    popWhile cond fuel q = none := by
  induction fuel generalizing q with
  | zero => exact popWhile_zero (h q)
  | succ fuel ih => rw [popWhile_succ (h q), ih]

/-- The front is taken off as long as its first element meets the condition. -/
theorem popWhile_head (p : α → Bool) (hfuel : q.length ≤ fuel) :
    popWhile (fun q => q.head?.any p) fuel q = some (q.dropWhile p) := by
  induction q generalizing fuel with
  | nil =>
    refine popWhile_of_false ?_ fuel
    rfl
  | cons a q ih =>
    cases hp : p a with
    | true =>
      obtain ⟨n, rfl⟩ := Nat.exists_eq_add_of_le' ((Nat.succ_pos _).trans_le hfuel)
      have hhead : (a :: q).head?.any p = true := hp
      rw [List.dropWhile_cons_of_pos hp]
      exact (popWhile_succ hhead n).trans (ih (Nat.le_of_succ_le_succ hfuel))
    | false =>
      have hhead : (a :: q).head?.any p = false := hp
      rw [List.dropWhile_cons_of_neg (Bool.eq_false_iff.mp hp)]
      exact popWhile_of_false hhead fuel

/-- The front is taken off until fewer than `limit + 1` elements are left. -/
theorem popWhile_length (hfuel : q.length ≤ fuel) :
    popWhile (fun q => decide (limit + 1 ≤ q.length)) fuel q = some (q.rtake limit) := by
  induction q generalizing fuel with
  | nil =>
    rw [List.rtake, List.drop_nil]
    exact popWhile_of_false (decide_eq_false (Nat.not_succ_le_zero limit)) fuel
  | cons a q ih =>
    by_cases hlong : limit + 1 ≤ (a :: q).length
    · obtain ⟨n, rfl⟩ := Nat.exists_eq_add_of_le' ((Nat.succ_pos _).trans_le hfuel)
      have hdrop : (a :: q).rtake limit = q.rtake limit := by
        have hlength : (a :: q).length - limit = (q.length - limit) + 1 := by
          rw [List.length_cons] at hlong ⊢
          omega
        rw [List.rtake, List.rtake, hlength, List.drop_succ_cons]
      rw [hdrop]
      exact (popWhile_succ (decide_eq_true hlong) n).trans (ih (Nat.le_of_succ_le_succ hfuel))
    · have hshort : (a :: q).length ≤ limit := by omega
      rw [List.rtake, Nat.sub_eq_zero_of_le hshort, List.drop_zero]
      exact popWhile_of_false (decide_eq_false hlong) fuel

/-- With more fuel the result stays the same. -/
theorem popWhile_unique {fuel' : ℕ} {r' : List α} (h : popWhile cond fuel q = some r)
    (h' : popWhile cond fuel' q = some r') : r = r' := by
  induction fuel generalizing fuel' q with
  | zero =>
    cases hq : cond q with
    | true =>
      rw [popWhile_zero hq] at h
      cases h
    | false =>
      rw [popWhile_of_false hq] at h h'
      exact Option.some.inj (h.symm.trans h')
  | succ fuel ih =>
    cases hq : cond q with
    | true =>
      cases fuel' with
      | zero =>
        rw [popWhile_zero hq] at h'
        cases h'
      | succ fuel' => exact ih (popWhile_succ hq fuel ▸ h) (popWhile_succ hq fuel' ▸ h')
    | false =>
      rw [popWhile_of_false hq] at h h'
      exact Option.some.inj (h.symm.trans h')

end

/-! ## By age and by number -/

section

variable {p : α → Bool} {l q : List α} {limit : ℕ}

theorem dropWhile_eq_filter (h : q.Pairwise fun a b => p a → p b) :
    q.dropWhile (fun a => !p a) = q.filter p := by
  induction q with
  | nil => rfl
  | cons a q ih =>
    obtain ⟨ha, hq⟩ := List.pairwise_cons.mp h
    cases hp : p a with
    | true =>
      rw [List.dropWhile_cons_of_neg (by simp [hp]), List.filter_cons_of_pos hp]
      exact congrArg (List.cons a) (List.filter_eq_self.mpr fun b hb => ha b hb hp).symm
    | false =>
      rw [List.dropWhile_cons_of_pos (by simp [hp]), List.filter_cons_of_neg (by simp [hp]), ih hq]

theorem rtake_of_length_le (h : l.length ≤ limit) : l.rtake limit = l := by
  rw [List.rtake, Nat.sub_eq_zero_of_le h, List.drop_zero]

theorem exists_rtake_succ (h : limit < l.length) :
    ∃ a, l.rtake (limit + 1) = a :: l.rtake limit := by
  have hlt : l.length - (limit + 1) < l.length := by omega
  refine ⟨l[l.length - (limit + 1)], ?_⟩
  rw [List.rtake, List.rtake, List.drop_eq_getElem_cons hlt]
  congr 2
  omega

/-- A queue that holds selected elements of a stretch and is a stretch itself holds all of it, once
it holds the first. -/
theorem filter_eq_self_of_suffix {a : α} {p' : α → Bool} (ha : p' a = true)
    (h : (a :: l).filter p' <:+ a :: l) : l.filter p' = l := by
  rw [List.filter_cons_of_pos ha, List.suffix_cons_iff] at h
  rcases h with heq | hsuffix
  · exact (List.cons.inj heq).2
  · have hcount : (a :: l.filter p').countP p' ≤ l.countP p' := hsuffix.sublist.countP_le
    have hall : (l.filter p').countP p' = (l.filter p').length :=
      List.countP_eq_length.mpr fun b hb => (List.mem_filter.mp hb).2
    rw [List.countP_cons_of_pos ha, hall, List.countP_eq_length_filter] at hcount
    exact absurd hcount (Nat.not_succ_le_self _)

/-- A queue one longer than the limit that has lost its old front begins with something fresh; if
what is left within the limit is fresh too, nothing old is left. -/
theorem forall_dropWhile_of_rtake (hlength : q.length ≤ limit + 1)
    (hall : ∀ a ∈ (q.dropWhile fun a => !p a).rtake limit, p a = true) :
    ∀ a ∈ q.dropWhile (fun a => !p a), p a = true := by
  have hle := (List.dropWhile_suffix (fun a => !p a)).length_le.trans hlength
  cases hd : q.dropWhile fun a => !p a with
  | nil => exact fun a ha => absurd ha List.not_mem_nil
  | cons a d =>
    rw [hd] at hall hle
    have hhead : p a = true := by
      have hne : q.dropWhile (fun a => !p a) ≠ [] := by simp [hd]
      have hnot := List.head_dropWhile_not (fun a => !p a) hne
      simpa [hd] using hnot
    have htail : d <:+ (a :: d).rtake limit := by
      rw [List.rtake]
      exact List.suffix_of_suffix_length_le (List.suffix_cons a d) (List.drop_suffix _ _)
        (by rw [List.length_drop, List.length_cons] at *; omega)
    exact List.forall_mem_cons.mpr ⟨hhead, fun b hb => hall b (htail.subset hb)⟩

/-- Nothing old stands behind something fresh if all that is old leaves at the front. -/
theorem pairwise_of_forall_dropWhile (h : ∀ a ∈ q.dropWhile (fun a => !p a), p a = true) :
    q.Pairwise fun a b => p a → p b := by
  rw [← List.takeWhile_append_dropWhile (p := fun a => !p a) (l := q), List.pairwise_append]
  have htake : ∀ a ∈ q.takeWhile (fun a => !p a), ¬ p a := fun a ha => by
    simpa using List.mem_takeWhile_imp ha
  refine ⟨List.pairwise_of_forall_mem_list ?_, List.pairwise_of_forall_mem_list ?_, ?_⟩
  · exact fun a ha b _ hp => absurd hp (htake a ha)
  · exact fun a _ b hb _ => h b hb
  · exact fun a ha b _ hp => absurd hp (htake a ha)

/-- The fresh ones of the last elements were all selected before. -/
theorem filter_filter_of_back {p' : α → Bool} (hq : q = (l.rtake (limit + 1)).filter p')
    (hback : ∀ a ∈ l.rtake limit, p a → a ∈ q) :
    ((l.rtake limit).filter p').filter p = (l.rtake limit).filter p := by
  rw [List.filter_filter]
  refine List.filter_congr fun a ha => ?_
  cases hp : p a with
  | false => rfl
  | true =>
    have hmem := hback a ha hp
    rw [hq] at hmem
    rw [(List.mem_filter.mp hmem).2]
    rfl

/-- The queue of the last elements that are fresh, after what is no longer fresh has left at the
front and then what is too much: it is the queue of the last elements again if nothing that is not
fresh stands behind something fresh, and nothing is fresh again that has left before. -/
theorem evict_eq_iff {p' : α → Bool} (hq : q = (l.rtake (limit + 1)).filter p')
    (hsuffix : q <:+ l) :
    (q.dropWhile fun a => !p a).rtake limit = (l.rtake limit).filter p ↔
      (q.Pairwise fun a b => p a → p b) ∧ ∀ a ∈ l.rtake limit, p a → a ∈ q := by
  have hlength : q.length ≤ limit + 1 := by
    rw [hq]
    exact (List.length_filter_le _ _).trans ((length_rtake _ _).trans_le (Nat.min_le_left _ _))
  constructor
  · intro heq
    have hall : ∀ a ∈ (q.dropWhile fun a => !p a).rtake limit, p a = true := by
      rw [heq]
      exact fun a ha => (List.mem_filter.mp ha).2
    refine ⟨pairwise_of_forall_dropWhile (forall_dropWhile_of_rtake hlength hall),
      fun a ha hp => ?_⟩
    have hmem : a ∈ (q.dropWhile fun a => !p a).rtake limit :=
      heq ▸ List.mem_filter.mpr ⟨ha, hp⟩
    exact (List.dropWhile_suffix _).subset ((rtake_suffix _ _).subset hmem)
  · rintro ⟨hpairs, hback⟩
    rw [dropWhile_eq_filter hpairs]
    have hfilter := filter_filter_of_back hq hback
    have hshort : ((l.rtake limit).filter p).length ≤ limit :=
      (List.length_filter_le _ _).trans ((length_rtake _ _).trans_le (Nat.min_le_left _ _))
    rcases Nat.lt_or_ge limit l.length with hlong | hle
    · obtain ⟨a, ha⟩ := exists_rtake_succ hlong
      rw [ha] at hq
      -- the element that the limit cuts off counts only if it was in the queue
      cases hp' : p' a with
      | false =>
        rw [hq, List.filter_cons_of_neg (by simp [hp']), hfilter, rtake_of_length_le hshort]
      | true =>
        have hstretch : (a :: l.rtake limit).filter p' <:+ a :: l.rtake limit := by
          refine List.suffix_of_suffix_length_le (hq ▸ hsuffix) ?_ (List.length_filter_le _ _)
          exact ha ▸ rtake_suffix _ _
        have hself := filter_eq_self_of_suffix hp' hstretch
        rw [hq, List.filter_cons_of_pos hp', hself] at hpairs ⊢
        -- a fresh one has only fresh ones behind it, and the limit takes it off
        cases hp : p a with
        | false => rw [List.filter_cons_of_neg (by simp [hp]), rtake_of_length_le hshort]
        | true =>
          have hall := fun b hb => (List.pairwise_cons.mp hpairs).1 b hb hp
          rw [List.filter_cons_of_pos hp, List.filter_eq_self.mpr hall, List.rtake,
            List.length_cons, length_rtake, Nat.min_eq_left hlong.le, Nat.add_sub_cancel_left]
          rfl
    · rw [rtake_of_length_le (hle.trans (Nat.le_succ limit)), ← rtake_of_length_le hle] at hq
      rw [hq, hfilter, rtake_of_length_le hshort]

end

/-! ## Snapshots -/

/-- The queue starts with entries of the snapshot, in their order, and none is behind them. -/
def Remains (snapshot queue : List α) : Prop :=
  ∃ front rest, queue = front ++ rest ∧ front.Sublist snapshot ∧ ∀ x ∈ rest, x ∉ snapshot

variable {snapshot queue : List α}

theorem Remains.refl (queue : List α) : Remains queue queue :=
  ⟨queue, [], (List.append_nil queue).symm, List.Sublist.refl queue, by simp⟩

theorem Remains.append (h : Remains snapshot queue) {new : List α}
    (hnew : ∀ x ∈ new, x ∉ snapshot) : Remains snapshot (queue ++ new) := by
  obtain ⟨front, rest, rfl, hfront, hrest⟩ := h
  refine ⟨front, rest ++ new, List.append_assoc front rest new, hfront, ?_⟩
  intro x hx
  exact (List.mem_append.mp hx).elim (hrest x) (hnew x)

theorem Remains.filter (h : Remains snapshot queue) (keep : α → Bool) :
    Remains snapshot (queue.filter keep) := by
  obtain ⟨front, rest, rfl, hfront, hrest⟩ := h
  refine ⟨front.filter keep, rest.filter keep, List.filter_append front rest,
    List.filter_sublist.trans hfront, ?_⟩
  exact fun x hx => hrest x (List.mem_of_mem_filter hx)

theorem Remains.drop (h : Remains snapshot queue) (n : ℕ) :
    Remains snapshot (queue.drop n) := by
  obtain ⟨front, rest, rfl, hfront, hrest⟩ := h
  refine ⟨front.drop n, rest.drop (n - front.length), List.drop_append,
    (List.drop_sublist n front).trans hfront, ?_⟩
  exact fun x hx => hrest x (List.mem_of_mem_drop hx)

/-- Dropping as many entries as the snapshot has leaves none of them. -/
theorem Remains.notMem_drop (h : Remains snapshot queue) {x : α}
    (hx : x ∈ queue.drop snapshot.length) : x ∉ snapshot := by
  obtain ⟨front, rest, rfl, hfront, hrest⟩ := h
  have hnil : front.drop snapshot.length = [] := List.drop_of_length_le hfront.length_le
  rw [List.drop_append, hnil, List.nil_append] at hx
  exact hrest x (List.mem_of_mem_drop hx)

/-! ## Rolling windows -/

/-- Adds an element, and first drops the oldest if the window is full. -/
def roll (cap : ℕ) (window : List α) (a : α) : List α :=
  (if window.length ≥ cap then window.tail else window) ++ [a]

/-- A window keeps the last elements, and one at least. -/
theorem roll_rtake (cap : ℕ) (as : List α) (a : α) :
    roll cap (as.rtake (max cap 1)) a = (as ++ [a]).rtake (max cap 1) := by
  have hlength := length_rtake (max cap 1) as
  rw [← rtake_snoc, roll]
  generalize as.rtake (max cap 1) = window at *
  by_cases hfull : window.length ≥ cap
  · rw [if_pos hfull]
    cases window with
    | nil => rw [List.tail_nil, rtake_of_length_le (le_max_right cap 1)]
    | cons first rest =>
      rw [List.length_cons] at hlength hfull
      have hlast : (first :: rest ++ [a]).length - max cap 1 = 1 := by
        simp only [List.length_cons, List.length_append, List.length_nil]
        omega
      rw [List.rtake, hlast]
      rfl
  · have hshort : (window ++ [a]).length ≤ max cap 1 := by
      simp only [List.length_append, List.length_singleton]
      omega
    rw [if_neg hfull, rtake_of_length_le hshort]

theorem foldl_roll (cap : ℕ) (as : List α) : as.foldl (roll cap) [] = as.rtake (max cap 1) := by
  induction as using List.reverseRecOn with
  | nil => rw [List.rtake, List.drop_nil]; rfl
  | append_singleton as a ih => rw [List.foldl_concat, ih, roll_rtake]

/-! ## Rings -/

/-- A queue that never holds more than its capacity. -/
structure RingBuffer (α : Type*) (capacity : ℕ) where
  items : List α
  bounded : items.length ≤ capacity

namespace RingBuffer

variable {capacity : ℕ}

def empty (α : Type*) (capacity : ℕ) : RingBuffer α capacity := ⟨[], Nat.zero_le capacity⟩

/-- Adds an element, and first drops the oldest if the ring is full; one without room stays as it
is. -/
def push (r : RingBuffer α capacity) (a : α) : RingBuffer α capacity where
  items := if capacity = 0 then r.items
    else (if r.items.length = capacity then r.items.tail else r.items) ++ [a]
  bounded := by
    have h := r.bounded
    split_ifs with hzero hfull
    · exact h
    · rw [List.length_append, List.length_tail, List.length_singleton]
      omega
    · rw [List.length_append, List.length_singleton]
      omega

theorem items_push (r : RingBuffer α capacity) (a : α) :
    (r.push a).items = (r.items ++ [a]).rtake capacity := by
  have h := r.bounded
  change (if _ then _ else _) = _
  split_ifs with hzero hfull
  · subst hzero
    rw [List.rtake_zero, List.length_eq_zero_iff.mp (Nat.le_zero.mp h)]
  · have hone : (r.items ++ [a]).length - capacity = 1 := by
      rw [List.length_append, List.length_singleton]
      omega
    rw [List.rtake, hone, List.drop_one]
    cases hitems : r.items with
    | nil => exact absurd (hfull.symm.trans (congrArg List.length hitems)) hzero
    | cons first rest => rfl
  · rw [rtake_of_length_le]
    rw [List.length_append, List.length_singleton]
    omega

theorem getLast?_push (h : capacity ≠ 0) (r : RingBuffer α capacity) (a : α) :
    (r.push a).items.getLast? = some a := by
  obtain ⟨n, rfl⟩ := Nat.exists_eq_succ_of_ne_zero h
  rw [items_push, List.rtake_concat_succ, List.getLast?_concat]

/-- What is left of all that was added. -/
theorem items_foldl_push (r : RingBuffer α capacity) (as : List α) :
    (as.foldl push r).items = (r.items ++ as).rtake capacity := by
  induction as using List.reverseRecOn with
  | nil => rw [List.foldl_nil, List.append_nil, rtake_of_length_le r.bounded]
  | append_singleton as a ih =>
    rw [List.foldl_concat, items_push, ih, rtake_snoc, List.append_assoc]

end RingBuffer

end Wardex.Lib
