import Mathlib.Data.Set.Function
import Mathlib.Logic.Function.Iterate
import Wardex.Lib.KeyMap

/-! Files that are moved one after the other to places computed from their paths, and are copied
back later: when all of them come back. -/

namespace Wardex.Lib

open KeyMap

/-- No path is its own place, nor the place of its place, and so on. -/
def Acyclic {κ : Type*} (f : κ → κ) : Prop := ∀ (k : ℕ) (a : κ), f^[k + 1] a ≠ a

/-- A map that gains in size on its own values has no cycle. -/
theorem acyclic_of_lt {κ : Type*} {f : κ → κ} (size : κ → ℕ)
    (h : ∀ a, size (f a) < size (f (f a))) : Acyclic f := by
  intro k a ha
  have hgrows (n : ℕ) : size (f a) + n ≤ size (f^[n + 1] a) := by
    induction n with
    | zero => exact le_refl _
    | succ n ih =>
      have hstep := h (f^[n] a)
      rw [Function.iterate_succ_apply' f n a] at ih
      rw [Function.iterate_succ_apply' f (n + 1) a, Function.iterate_succ_apply' f n a]
      omega
  have hagain : f^[k + 1 + 1] a = f a := by rw [Function.iterate_succ_apply', ha]
  have hle := hgrows (k + 1)
  rw [hagain] at hle
  omega

section

variable {κ α : Type*} [DecidableEq κ]

def stashAll (stash : κ → κ) (paths : List κ) (files : KeyMap κ α) : KeyMap κ α :=
  paths.foldl (fun files p => files.rename p (stash p)) files

def recoverAll (source target : κ → κ) (paths : List κ) (files : KeyMap κ α) : KeyMap κ α :=
  paths.foldl (fun files p => files.copy (source p) (target p)) files

variable {stash source target : κ → κ} {paths : List κ} {files : KeyMap κ α} {p x : κ} {a : α}

theorem stashAll_cons : stashAll stash (p :: paths) files =
    stashAll stash paths (files.rename p (stash p)) := rfl

theorem recoverAll_cons : recoverAll source target (p :: paths) files =
    recoverAll source target paths (files.copy (source p) (target p)) := rfl

theorem stashAll_append {front back : List κ} : stashAll stash (front ++ back) files =
    stashAll stash back (stashAll stash front files) := List.foldl_append

theorem recoverAll_append {front back : List κ} : recoverAll source target (front ++ back) files =
    recoverAll source target back (recoverAll source target front files) := List.foldl_append

/-! ## What the moves leave where -/

theorem stashAll_of_not_mem (hx : x ∉ paths) (hplace : x ∉ paths.map stash) :
    stashAll stash paths files x = files x := by
  induction paths generalizing files with
  | nil => rfl
  | cons p paths ih =>
    obtain ⟨hne, hx⟩ := not_or.mp (List.mem_cons.not.mp hx)
    obtain ⟨hne', hplace⟩ := not_or.mp (List.mem_cons.not.mp hplace)
    rw [stashAll_cons, ih hx hplace, rename_of_ne hne hne']

/-- Where no place is taken twice or is the path of another file, each file is at its own. -/
theorem stashAll_place (hnodup : paths.Nodup) (hinj : ∀ p ∈ paths, ∀ q ∈ paths,
      stash p = stash q → p = q) (hplace : ∀ p ∈ paths, stash p ∉ paths)
    (hfile : ∀ p ∈ paths, files p ≠ none) (hp : p ∈ paths) :
    stashAll stash paths files (stash p) = files p := by
  induction paths generalizing files with
  | nil => exact absurd hp List.not_mem_nil
  | cons first paths ih =>
    obtain ⟨hfirst, hnodup⟩ := List.nodup_cons.mp hnodup
    have hkept : ∀ q ∈ paths, files.rename first (stash first) q = files q := by
      intro q hq
      have hne : q ≠ first := fun heq => hfirst (heq ▸ hq)
      have hne' : q ≠ stash first := by
        intro heq
        exact hplace first List.mem_cons_self (heq ▸ List.mem_cons_of_mem first hq)
      exact rename_of_ne hne hne'
    rw [stashAll_cons]
    rcases List.mem_cons.mp hp with rfl | hp
    · obtain ⟨a, ha⟩ := Option.ne_none_iff_exists'.mp (hfile p List.mem_cons_self)
      rw [stashAll_of_not_mem, rename_dst ha, ha]
      · exact fun hmem => hplace p List.mem_cons_self (List.mem_cons_of_mem p hmem)
      · intro hmem
        obtain ⟨q, hq, heq⟩ := List.mem_map.mp hmem
        have hsame := hinj q (List.mem_cons_of_mem p hq) p List.mem_cons_self heq
        exact hfirst (hsame ▸ hq)
    · rw [← hkept p hp]
      refine ih hnodup (fun q hq r hr => ?_) (fun q hq hmem => ?_) (fun q hq => ?_) hp
      · exact hinj q (List.mem_cons_of_mem first hq) r (List.mem_cons_of_mem first hr)
      · exact hplace q (List.mem_cons_of_mem first hq) (List.mem_cons_of_mem first hmem)
      · rw [hkept q hq]
        exact hfile q (List.mem_cons_of_mem first hq)

/-- What is found after the moves came from a path of which it is the place, or the place of the
place, and so on; at a path that was moved from, it has been moved itself. -/
theorem exists_iterate_of_stashAll (hne : ∀ a, stash a ≠ a)
    (h : stashAll stash paths files x = some a) :
    ∃ k y, stash^[k] y = x ∧ files y = some a ∧ (x ∈ paths → k ≠ 0) := by
  induction paths generalizing files with
  | nil => exact ⟨0, x, rfl, h, fun hx => absurd hx List.not_mem_nil⟩
  | cons p paths ih =>
    rw [stashAll_cons] at h
    obtain ⟨k, y, rfl, hy, hmoved⟩ := ih h
    by_cases hyp : y = p
    · rw [hyp, rename_src (hne p).symm] at hy
      exact absurd hy (Option.some_ne_none a).symm
    · cases hp : files p with
      | none =>
        rw [rename_of_none hp] at hy
        refine ⟨k, y, rfl, hy, fun hx hk => ?_⟩
        rcases List.mem_cons.mp hx with hx | hx
        · exact hyp (by rw [← hx, hk, Function.iterate_zero_apply])
        · exact hmoved hx hk
      | some b =>
        by_cases hyplace : y = stash p
        · rw [hyplace, rename_dst hp] at hy
          obtain rfl := Option.some.inj hy
          refine ⟨k + 1, p, ?_, hp, fun _ => Nat.succ_ne_zero k⟩
          rw [Function.iterate_succ_apply, hyplace]
        · rw [rename_of_ne hyp hyplace] at hy
          refine ⟨k, y, rfl, hy, fun hx hk => ?_⟩
          rcases List.mem_cons.mp hx with hx | hx
          · exact hyp (by rw [← hx, hk, Function.iterate_zero_apply])
          · exact hmoved hx hk

/-- A file that is not moved itself may be replaced, but is not lost. -/
theorem stashAll_ne_none (hp : p ∉ paths) (hfile : files p ≠ none) :
    stashAll stash paths files p ≠ none := by
  induction paths generalizing files with
  | nil => exact hfile
  | cons first paths ih =>
    obtain ⟨hne, hp⟩ := not_or.mp (List.mem_cons.not.mp hp)
    refine ih hp ?_
    by_cases hplace : p = stash first
    · rw [hplace] at hfile ⊢
      change files.rename first (stash first) (stash first) ≠ none
      rw [rename_dst_eq]
      cases files first with
      | none => exact hfile
      | some b => exact Option.some_ne_none b
    · change files.rename first (stash first) p ≠ none
      rw [rename_of_ne hne hplace]
      exact hfile

/-- What is found in one place only, and is not moved, is found nowhere else. -/
theorem eq_of_stashAll (hp : p ∉ paths) (honly : ∀ x, files x = some a → x = p)
    (h : stashAll stash paths files x = some a) : x = p := by
  induction paths generalizing files with
  | nil => exact honly x h
  | cons first paths ih =>
    obtain ⟨hne, hp⟩ := not_or.mp (List.mem_cons.not.mp hp)
    rw [stashAll_cons] at h
    refine ih hp (fun y hy => ?_) h
    by_cases hplace : y = stash first
    · rw [hplace, rename_dst_eq] at hy
      cases hfirst : files first with
      | none =>
        rw [hfirst, Option.none_or] at hy
        exact hplace.trans (honly _ hy)
      | some b =>
        rw [hfirst, Option.some_or] at hy
        exact absurd (honly first (hfirst.trans hy)) (Ne.symm hne)
    · by_cases hyfirst : y = first
      · rw [hyfirst, rename_src fun heq => hplace (hyfirst.trans heq)] at hy
        exact absurd hy (Option.some_ne_none a).symm
      · rw [rename_of_ne hyfirst hplace] at hy
        exact honly y hy

/-! ## What comes back -/

theorem recoverAll_of_not_mem (hx : x ∉ paths.map target) :
    recoverAll source target paths files x = files x := by
  induction paths generalizing files with
  | nil => rfl
  | cons p paths ih =>
    obtain ⟨hne, hx⟩ := not_or.mp (List.mem_cons.not.mp hx)
    rw [recoverAll_cons, ih hx, copy_of_ne hne]

theorem recoverAll_of_none (h : ∀ p ∈ paths, files (source p) = none) :
    recoverAll source target paths files = files := by
  induction paths with
  | nil => rfl
  | cons p paths ih =>
    rw [recoverAll_cons, copy_of_none (h p List.mem_cons_self)]
    exact ih fun q hq => h q (List.mem_cons_of_mem p hq)

theorem recoverAll_congr {source' target' : κ → κ} (hsource : ∀ p ∈ paths, source p = source' p)
    (htarget : ∀ p ∈ paths, target p = target' p) :
    recoverAll source target paths files = recoverAll source' target' paths files := by
  induction paths generalizing files with
  | nil => rfl
  | cons p paths ih =>
    rw [recoverAll_cons, recoverAll_cons, hsource p List.mem_cons_self,
      htarget p List.mem_cons_self]
    exact ih (fun q hq => hsource q (List.mem_cons_of_mem p hq))
      fun q hq => htarget q (List.mem_cons_of_mem p hq)

/-- What is nowhere is nowhere after a copy. -/
theorem copy_ne_some (h : ∀ x, files x ≠ some a) (src dst x : κ) :
    files.copy src dst x ≠ some a := by
  cases hsrc : files src with
  | none =>
    rw [copy_of_none hsrc]
    exact h x
  | some b =>
    by_cases hx : x = dst
    · rw [hx, copy_dst hsrc, ← hsrc]
      exact h src
    · rw [copy_of_ne hx]
      exact h x

/-- Nor is it anywhere after a move. -/
theorem rename_ne_some (h : ∀ x, files x ≠ some a) (src dst x : κ) :
    files.rename src dst x ≠ some a := by
  cases hsrc : files src with
  | none =>
    rw [rename_of_none hsrc]
    exact h x
  | some b =>
    by_cases hx : x = dst
    · rw [hx, rename_dst hsrc, ← hsrc]
      exact h src
    · by_cases hx' : x = src
      · rw [hx', rename_src fun heq => hx (hx'.trans heq)]
        exact (Option.some_ne_none a).symm
      · rw [rename_of_ne hx' hx]
        exact h x

theorem recoverAll_ne_some (h : ∀ x, files x ≠ some a) (x : κ) :
    recoverAll source target paths files x ≠ some a := by
  induction paths generalizing files with
  | nil => exact h x
  | cons p paths ih => exact ih (copy_ne_some h (source p) (target p))

theorem stashAll_ne_some (h : ∀ x, files x ≠ some a) (x : κ) :
    stashAll stash paths files x ≠ some a := by
  induction paths generalizing files with
  | nil => exact h x
  | cons p paths ih => exact ih (rename_ne_some h p (stash p))

/-- Copied back from where they are, the files are at their paths. -/
theorem recoverAll_self (hnodup : paths.Nodup) (hplace : ∀ p ∈ paths, source p ∉ paths)
    (hp : p ∈ paths) (ha : files (source p) = some a) :
    recoverAll source id paths files p = some a := by
  induction paths generalizing files with
  | nil => exact absurd hp List.not_mem_nil
  | cons first paths ih =>
    obtain ⟨hfirst, hnodup⟩ := List.nodup_cons.mp hnodup
    rw [recoverAll_cons]
    by_cases heq : p = first
    · have hout : p ∉ paths.map id := by rwa [List.map_id, heq]
      rw [recoverAll_of_not_mem hout, ← heq]
      exact copy_dst ha
    · have hp := (List.mem_cons.mp hp).resolve_left heq
      refine ih hnodup (fun q hq hmem => ?_) hp ?_
      · exact hplace q (List.mem_cons_of_mem first hq) (List.mem_cons_of_mem first hmem)
      · have hne : source p ≠ id first := fun h => hplace p (List.mem_cons_of_mem first hp)
          (h ▸ List.mem_cons_self)
        rw [copy_of_ne hne, ha]

end

/-! ## When all files come back -/

variable {κ : Type} [DecidableEq κ] {stash source target : κ → κ} {paths : List κ} {p : κ}

/-- Whatever the files contain, all are as they were after they were moved and copied back. -/
def Recovers (stash source target : κ → κ) (paths : List κ) : Prop :=
  ∀ (α : Type) (files : KeyMap κ α), (∀ p ∈ paths, files p ≠ none) → ∀ p ∈ paths,
    recoverAll source target paths (stashAll stash paths files) p = files p

theorem Recovers.congr {source' target' : κ → κ} (h : Recovers stash source target paths)
    (hsource : ∀ p ∈ paths, source p = source' p) (htarget : ∀ p ∈ paths, target p = target' p) :
    Recovers stash source' target' paths := by
  intro α files hfile p hp
  rw [← recoverAll_congr hsource htarget]
  exact h α files hfile p hp

theorem recovers_of_apart (hnodup : paths.Nodup) (hinj : ∀ p ∈ paths, ∀ q ∈ paths,
      stash p = stash q → p = q) (hplace : ∀ p ∈ paths, stash p ∉ paths) :
    Recovers stash stash id paths := by
  intro α files hfile p hp
  obtain ⟨a, ha⟩ := Option.ne_none_iff_exists'.mp (hfile p hp)
  have hstashed : stashAll stash paths files (stash p) = some a :=
    (stashAll_place hnodup hinj hplace hfile hp).trans ha
  rw [recoverAll_self hnodup hplace hp hstashed, ha]

/-- Files that contain their own paths. -/
def tokens (paths : List κ) : KeyMap κ κ := fun x => if x ∈ paths then some x else none

theorem tokens_of_mem (hp : p ∈ paths) : tokens paths p = some p := if_pos hp

theorem tokens_eq_some_iff {x y : κ} : tokens paths x = some y ↔ x ∈ paths ∧ x = y := by
  unfold tokens
  split_ifs with hx
  · rw [Option.some.injEq, and_iff_right hx]
  · exact iff_of_false not_false fun h => hx h.1

theorem stashAll_tokens_ne (hacyclic : Acyclic stash) (hp : p ∈ paths) :
    stashAll stash paths (tokens paths) p ≠ some p := by
  intro h
  obtain ⟨k, y, hk, hy, hmoved⟩ := exists_iterate_of_stashAll (hacyclic 0) h
  obtain ⟨-, rfl⟩ := tokens_eq_some_iff.mp hy
  obtain ⟨n, rfl⟩ := Nat.exists_eq_succ_of_ne_zero (hmoved hp)
  exact hacyclic n y hk

theorem Recovers.tokens (h : Recovers stash source target paths) (hp : p ∈ paths) :
    recoverAll source target paths (stashAll stash paths (tokens paths)) p = some p := by
  rw [h κ (Lib.tokens paths) (fun q hq => ?_) p hp, tokens_of_mem hp]
  rw [tokens_of_mem hq]
  exact Option.some_ne_none q

/-- A file that comes back is the target of a copy. -/
theorem Recovers.mem_target (hacyclic : Acyclic stash) (h : Recovers stash source target paths)
    (hp : p ∈ paths) : p ∈ paths.map target := by
  by_contra hnot
  have hback := h.tokens hp
  rw [recoverAll_of_not_mem hnot] at hback
  exact stashAll_tokens_ne hacyclic hp hback

/-- Where the sources of the copies are no places, no file comes back. -/
theorem Recovers.eq_nil (hacyclic : Acyclic stash) (h : Recovers stash source target paths)
    (hsource : ∀ p ∈ paths, source p ∉ paths ∧ ∀ q, stash q ≠ source p) : paths = [] := by
  have hempty : ∀ p ∈ paths, stashAll stash paths (Lib.tokens paths) (source p) = none := by
    intro p hp
    obtain ⟨hout, hnot⟩ := hsource p hp
    by_contra hsome
    obtain ⟨b, hb⟩ := Option.ne_none_iff_exists'.mp hsome
    obtain ⟨k, y, hk, hy, -⟩ := exists_iterate_of_stashAll (hacyclic 0) hb
    cases k with
    | zero => exact hout (hk ▸ (tokens_eq_some_iff.mp hy).1)
    | succ k => exact hnot _ ((Function.iterate_succ_apply' stash k y).symm.trans hk)
  refine List.eq_nil_iff_forall_not_mem.mpr fun p hp => ?_
  have hback := h.tokens hp
  rw [recoverAll_of_none hempty] at hback
  exact stashAll_tokens_ne hacyclic hp hback

/-! ## Where the copies go back to the paths -/

section

variable {front back : List κ}

/-- The files as they are when the copies of the paths in front have been made. -/
def recovered (stash : κ → κ) (paths front : List κ) : KeyMap κ κ :=
  recoverAll stash id front (stashAll stash paths (tokens paths))

theorem recovered_of_not_mem (hp : p ∉ back) :
    recovered stash paths (front ++ back) p = recovered stash paths front p := by
  rw [recovered, recoverAll_append]
  exact recoverAll_of_not_mem (by rwa [List.map_id])

/-- A file whose copy has been made is at its path. -/
theorem recovered_self (h : Recovers stash stash id paths) (hpaths : paths = front ++ back)
    (hp : p ∈ front) (hout : p ∉ back) : recovered stash paths front p = some p := by
  have hmem : p ∈ paths := hpaths ▸ List.mem_append_left back hp
  have hlast : recovered stash paths paths p = some p := h.tokens hmem
  have hsame : recovered stash paths (front ++ back) p = recovered stash paths front p :=
    recovered_of_not_mem hout
  rw [← hpaths] at hsame
  exact hsame.symm.trans hlast

/-- Before it is copied, a file is at its place. -/
theorem recovered_place (hacyclic : Acyclic stash) (h : Recovers stash stash id paths)
    (hnodup : paths.Nodup) (hpaths : paths = front ++ p :: back) :
    recovered stash paths front (stash p) = some p := by
  have hp : p ∈ paths := hpaths ▸ List.mem_append_right front List.mem_cons_self
  obtain ⟨-, hback, hfront⟩ := List.nodup_append.mp (hpaths ▸ hnodup)
  have hout : p ∉ front := fun hmem => hfront p hmem p List.mem_cons_self rfl
  have hcopied : recovered stash paths (front ++ [p]) =
      (recovered stash paths front).copy (stash p) p := by
    rw [recovered, recoverAll_append]
    rfl
  have hself : recovered stash paths (front ++ [p]) p = some p :=
    recovered_self h (by rw [hpaths, List.append_assoc, List.singleton_append])
      (List.mem_append_right front List.mem_cons_self) (List.nodup_cons.mp hback).1
  rw [hcopied] at hself
  cases hplace : recovered stash paths front (stash p) with
  | none =>
    rw [copy_of_none hplace, ← List.nil_append front, recovered_of_not_mem hout] at hself
    exact absurd hself (stashAll_tokens_ne hacyclic hp)
  | some b => exact (copy_dst hplace).symm.trans hself

theorem stash_ne_of_recovers {mid : List κ} {q : κ} (hacyclic : Acyclic stash)
    (h : Recovers stash stash id paths) (hnodup : paths.Nodup)
    (hpaths : paths = front ++ p :: (mid ++ q :: back)) : stash p ≠ stash q := by
  intro heq
  have hpaths' : paths = (front ++ p :: mid) ++ q :: back := by
    rw [hpaths, List.append_assoc, List.cons_append]
  obtain ⟨-, hback, hfront⟩ := List.nodup_append.mp (hpaths' ▸ hnodup)
  have hp := recovered_place hacyclic h hnodup hpaths
  have hq := recovered_place hacyclic h hnodup hpaths'
  by_cases hmem : stash q ∈ front ++ p :: mid
  · have hself := recovered_self h hpaths' hmem fun hout => hfront _ hmem _ hout rfl
    exact hacyclic 0 q (Option.some.inj (hself.symm.trans hq))
  · have hout : stash q ∉ p :: mid := fun hin => hmem (List.mem_append_right front hin)
    rw [recovered_of_not_mem hout, ← heq] at hq
    have hsame : p = q := Option.some.inj (hp.symm.trans hq)
    exact hfront p (List.mem_append_right front List.mem_cons_self) q List.mem_cons_self hsame

/-- A path that is the place of another is overwritten before its own file is moved. -/
theorem place_not_mem_of_recovers (hacyclic : Acyclic stash) (h : Recovers stash stash id paths)
    (hnodup : paths.Nodup) (hp : p ∈ paths) : stash p ∉ paths := by
  intro hz
  obtain ⟨front, back, hpaths⟩ := List.append_of_mem hp
  have hne : stash p ≠ p := hacyclic 0 p
  obtain ⟨-, hback, hfront⟩ := List.nodup_append.mp (hpaths ▸ hnodup)
  have hout : p ∉ front := fun hmem => hfront p hmem p List.mem_cons_self rfl
  have hz' : stash p ∉ front := by
    intro hmem
    have hself := recovered_self h hpaths hmem fun hin => hfront _ hmem _ hin rfl
    have hplace := recovered_place hacyclic h hnodup hpaths
    exact hne (Option.some.inj (hself.symm.trans hplace))
  have honly : ∀ x, tokens paths x = some (stash p) → x = stash p :=
    fun x hx => (tokens_eq_some_iff.mp hx).2
  have hfile : tokens paths p ≠ none := by
    rw [tokens_of_mem hp]
    exact Option.some_ne_none p
  have hkept : stashAll stash front (tokens paths) p ≠ none := stashAll_ne_none hout hfile
  obtain ⟨b, hb⟩ := Option.ne_none_iff_exists'.mp hkept
  have hlost : ∀ x, (stashAll stash front (tokens paths)).rename p (stash p) x ≠
      some (stash p) := by
    intro x hx
    by_cases hplace : x = stash p
    · rw [hplace, rename_dst hb, ← hb] at hx
      exact hne (eq_of_stashAll hz' honly hx).symm
    · by_cases hxp : x = p
      · rw [hxp, rename_src hne.symm] at hx
        exact absurd hx (Option.some_ne_none _).symm
      · rw [rename_of_ne hxp hplace] at hx
        exact hplace (eq_of_stashAll hz' honly hx)
  have hmoves : stashAll stash paths (tokens paths) =
      stashAll stash back ((stashAll stash front (tokens paths)).rename p (stash p)) :=
    (congrArg (fun l => stashAll stash l (tokens paths)) hpaths).trans stashAll_append
  have hstashed : ∀ x, stashAll stash paths (tokens paths) x ≠ some (stash p) :=
    fun x => hmoves ▸ stashAll_ne_some hlost x
  exact recoverAll_ne_some hstashed (stash p) (h.tokens hz)

end

/-- All files come back exactly where no two have the same place, and no place is the path of
one. -/
theorem recovers_iff (hacyclic : Acyclic stash) (hnodup : paths.Nodup) :
    Recovers stash stash id paths ↔
      (∀ p ∈ paths, ∀ q ∈ paths, stash p = stash q → p = q) ∧ ∀ p ∈ paths, stash p ∉ paths := by
  refine ⟨fun h => ⟨fun p hp q hq heq => ?_, fun p hp => ?_⟩, fun h => ?_⟩
  · by_contra hne
    obtain ⟨front, back, hpaths⟩ := List.append_of_mem hp
    rcases List.mem_append.mp (hpaths ▸ hq) with hfront | hback
    · obtain ⟨front', mid, rfl⟩ := List.append_of_mem hfront
      rw [List.append_assoc, List.cons_append] at hpaths
      exact stash_ne_of_recovers hacyclic h hnodup hpaths heq.symm
    · obtain ⟨mid, back', rfl⟩ := List.append_of_mem
        ((List.mem_cons.mp hback).resolve_left (Ne.symm hne))
      exact stash_ne_of_recovers hacyclic h hnodup hpaths heq
  · exact place_not_mem_of_recovers hacyclic h hnodup hp
  · exact recovers_of_apart hnodup h.1 h.2

end Wardex.Lib
