import Mathlib.Data.List.Basic
import Mathlib.Data.List.Induction
import Mathlib.Data.List.Range
import Mathlib.Order.Lattice
import Wardex.Lib.Run
import Wardex.Policy.Composition

/-! The policy state machine: any level can be reached from below, and from above only the next
one.  A request that is not legal is dropped. -/

namespace Wardex.Runtime

open Wardex.Lib Wardex.Policy

open Swarm (ThreatLevel)

inductive TransitionTrigger where
  | scoreThreshold (score : ℚ)
  | integrityDrift (drift : ℚ)
  | batteryDegradation (batteryPct : ℚ)

structure Transition where
  source : ThreatLevel
  target : ThreatLevel
  action : ResponseAction
  trigger : TransitionTrigger

def isLegal (source target : ThreatLevel) : Bool :=
  if target.rank ≥ source.rank then true
  else
    match source, target with
    | .critical, .severe | .severe, .elevated | .elevated, .nominal => true
    | _, _ => false

/-- The transitions lead from one level to the other, and each is legal. -/
def Leads : ThreatLevel → List Transition → ThreatLevel → Prop
  | a, [], b => a = b
  | a, t :: ts, b => t.source = a ∧ isLegal a t.target = true ∧ Leads t.target ts b

theorem Leads.concat {a b : ThreatLevel} {ts : List Transition} (h : Leads a ts b)
    {t : Transition} (hsource : t.source = b) (hlegal : isLegal b t.target = true) :
    Leads a (ts ++ [t]) t.target := by
  induction ts generalizing a with
  | nil =>
    obtain rfl : a = b := h
    exact ⟨hsource, hlegal, rfl⟩
  | cons s ts ih => exact ⟨h.1, h.2.1, ih h.2.2⟩

structure PolicyStateMachine where
  state : ThreatLevel
  trace : List Transition
  leads : Leads .nominal trace state

structure StepRequest where
  level : ThreatLevel
  action : ResponseAction
  trigger : TransitionTrigger

namespace PolicyStateMachine

def new : PolicyStateMachine where
  state := .nominal
  trace := []
  leads := rfl

def step (m : PolicyStateMachine) (r : StepRequest) : PolicyStateMachine :=
  if h : isLegal m.state r.level = true then
    { state := r.level
      trace := m.trace ++
        [{ source := m.state, target := r.level, action := r.action, trigger := r.trigger }]
      leads := m.leads.concat rfl h }
  else m

end PolicyStateMachine

/-! ## The ratchet -/

/-- Goes up to any number, and down by one at most. -/
def ratchet (n l : ℕ) : ℕ := if n ≤ l + 1 then l else n

/-- To come down, the ratchet needs every number on the way, in order. -/
theorem descent_sublist (n : ℕ) (ls : List ℕ) :
    (List.range' (ls.foldl ratchet n) (n - ls.foldl ratchet n)).reverse.Sublist ls := by
  induction ls generalizing n with
  | nil => simp
  | cons l ls ih =>
    rw [List.foldl_cons]
    have hrest := ih (ratchet n l)
    generalize ls.foldl ratchet (ratchet n l) = b at *
    unfold ratchet at hrest
    split_ifs at hrest with hlegal
    · rcases Nat.lt_or_ge l n with hdown | hup
      · obtain rfl : n = l + 1 := by omega
        rcases Nat.lt_or_ge l b with hb | hb
        · rw [Nat.sub_eq_zero_of_le hb]
          exact List.nil_sublist _
        · rw [Nat.sub_add_comm hb, List.range'_1_concat, List.reverse_append,
            Nat.add_sub_cancel' hb]
          exact hrest.cons_cons l
      · have hshort : (List.range' b (n - b)).Sublist (List.range' b (l - b)) :=
          List.range'_sublist_right.mpr (by omega)
        exact ((List.reverse_sublist.mpr hshort).trans hrest).cons l
    · exact hrest.cons l

theorem ratchet_eq_or (n l : ℕ) : ratchet n l = l ∨ ratchet n l = n := by
  unfold ratchet
  split_ifs
  · exact .inl rfl
  · exact .inr rfl

theorem foldl_ratchet_mem (n : ℕ) (ls : List ℕ) : ls.foldl ratchet n ∈ n :: ls := by
  induction ls generalizing n with
  | nil => exact List.mem_singleton_self n
  | cons l ls ih =>
    rw [List.foldl_cons]
    have hmem := ih (ratchet n l)
    rcases ratchet_eq_or n l with h | h <;> rw [h] at hmem ⊢
    · exact List.mem_cons_of_mem n hmem
    · exact List.cons_subset_cons n (List.subset_cons_self l ls) hmem

/-! ## Runs of the machine -/

theorem isLegal_iff (source target : ThreatLevel) :
    isLegal source target = true ↔ source.rank ≤ target.rank + 1 := by
  cases source <;> cases target <;> decide

namespace PolicyStateMachine

variable (m : PolicyStateMachine)

theorem rank_step (r : StepRequest) :
    (m.step r).state.rank = ratchet m.state.rank r.level.rank := by
  unfold step ratchet
  simp only [isLegal_iff]
  split_ifs <;> rfl

theorem rank_run (requests : List StepRequest) : (run step m requests).state.rank =
    (requests.map fun r => r.level.rank).foldl ratchet m.state.rank := by
  induction requests generalizing m with
  | nil => rfl
  | cons r requests ih =>
    rw [run_cons, ih, rank_step]
    rfl

/-- The machine is never below what was requested last, and never where nothing was requested; and
it comes down from a level only through every level in between, each requested in its turn. -/
theorem state_run (requests : List StepRequest) :
    (∀ r ∈ requests.getLast?, r.level.rank ≤ (run step m requests).state.rank) ∧
    (run step m requests).state ∈ m.state :: requests.map StepRequest.level ∧
    ∀ before after, requests = before ++ after →
      (List.range' (run step m requests).state.rank
        ((run step m before).state.rank - (run step m requests).state.rank)).reverse.Sublist
          (after.map fun r => r.level.rank) := by
  refine ⟨?_, ?_, ?_⟩
  · induction requests using List.reverseRecOn with
    | nil => simp
    | append_singleton requests r _ =>
      rw [List.getLast?_concat]
      intro r' hr'
      obtain rfl := Option.some.inj hr'
      rw [run_append, run_cons, run_nil, rank_step, ratchet]
      split_ifs with hlegal
      · exact le_rfl
      · omega
  · have hmem := foldl_ratchet_mem m.state.rank (requests.map fun r => r.level.rank)
    rw [← rank_run] at hmem
    have hmap : m.state.rank :: requests.map (fun r => r.level.rank) =
        (m.state :: requests.map StepRequest.level).map ThreatLevel.rank := by
      rw [List.map_cons, List.map_map]
      rfl
    rw [hmap, List.mem_map] at hmem
    obtain ⟨level, hlevel, hrank⟩ := hmem
    rwa [← ThreatLevel.rank_injective hrank]
  · rintro before after rfl
    rw [run_append, rank_run (run step m before)]
    exact descent_sublist _ _

end PolicyStateMachine

end Wardex.Runtime
