import Mathlib.Data.List.Infix
import Mathlib.Data.Nat.Basic

/-! The logs that the leaders of all terms have written, and logs that are made of them.
An entry carries the term in which it was made.  Prefixes are read position by position. -/

namespace Wardex.Lib

section

variable {α : Type*} {l l' l'' : List α}

theorem prefix_getElem? (h : l <+: l') {i : Nat} (hi : i < l.length) : l'[i]? = l[i]? := by
  obtain ⟨t, rfl⟩ := h
  exact List.getElem?_append_left hi

theorem prefix_getElem?_some (h : l <+: l') {i : Nat} {a : α} (ha : l[i]? = some a) :
    l'[i]? = some a := by
  rw [prefix_getElem? h (List.getElem?_eq_some_iff.mp ha).1, ha]

theorem lt_length_of_getElem?_some {i : Nat} {a : α} (ha : l[i]? = some a) : i < l.length :=
  (List.getElem?_eq_some_iff.mp ha).1

theorem getElem?_of_take {i m : Nat} {a : α} (ha : (l.take m)[i]? = some a) :
    l[i]? = some a := prefix_getElem?_some (List.take_prefix m l) ha

/-- A list that begins at position `q` begins with the item there. -/
theorem cons_isPrefix_drop {a : α} {rest : List α} {q : Nat} (h : a :: rest <+: l.drop q) :
    l[q]? = some a ∧ rest <+: l.drop (q + 1) := by
  obtain ⟨more, hmore⟩ := h
  have hfirst : l[q]? = some a := by
    rw [← List.head?_drop, ← hmore]
    rfl
  refine ⟨hfirst, more, ?_⟩
  rw [← List.tail_drop, ← hmore]
  rfl

theorem take_eq_of_isPrefix (h : l <+: l') {m : Nat} (hm : m ≤ l.length) :
    l'.take m = l.take m := by
  obtain ⟨t, rfl⟩ := h
  exact List.take_append_of_le_length hm

theorem prefix_take_self (h : l <+: l') {m : Nat} (hm : l.length ≤ m) : l <+: l'.take m :=
  List.prefix_take_iff.mpr ⟨h, hm⟩

end

/-! ## Logs of leaders -/

/-- For each term its leader, once it has one, and the log of this leader. -/
structure LogHistory (ι E : Type*) where
  leader : ℕ → Option ι
  canon : ℕ → List E

namespace LogHistory

variable {ι E : Type*} (termOf : E → ℕ)

/-- Up to each of its entries the log is the one of the leader that made the entry. -/
def Sourced (h : LogHistory ι E) (l : List E) : Prop :=
  ∀ p e, l[p]? = some e → l.take (p + 1) <+: h.canon (termOf e)

/-- Position `p` in the log of the leader of term `t` holds an entry of its own. -/
def Own (h : LogHistory ι E) (t p : ℕ) : Prop := ∃ e, (h.canon t)[p]? = some e ∧ termOf e = t

/-- A leader after term `t` and before term `u` lacks the log of term `t` up to `p`. -/
def Lost (h : LogHistory ι E) (t p u : ℕ) : Prop :=
  ∃ v, t < v ∧ v < u ∧ h.leader v ≠ none ∧ ¬ (h.canon t).take (p + 1) <+: h.canon v

def Kept (h : LogHistory ι E) (t p u : ℕ) (l : List E) : Prop :=
  (h.canon t).take (p + 1) <+: l ∨ h.Lost t p u

structure Ok (h : LogHistory ι E) : Prop where
  sourced : ∀ t, h.Sourced termOf (h.canon t)
  term_le : ∀ t, ∀ e ∈ h.canon t, termOf e ≤ t
  led : ∀ t, h.leader t = none → h.canon t = []

/-- Leaders stay, and what their logs gain has their own term. -/
structure Grows (h h' : LogHistory ι E) : Prop where
  leader : ∀ t c, h.leader t = some c → h'.leader t = some c
  canon : ∀ t, h.canon t <+: h'.canon t
  fresh : ∀ t l, h.leader t ≠ none → (∀ e ∈ l, termOf e < t) → l <+: h'.canon t →
    l <+: h.canon t

/-- The candidate's log `l` is at least as up to date as the voter's log `l'`. -/
def UpToDate (l l' : List E) : Prop :=
  ∀ a, l'.getLast? = some a → ∃ b, l.getLast? = some b ∧
    (termOf a < termOf b ∨ termOf a = termOf b ∧ l'.length ≤ l.length)

variable {termOf} {h h' : LogHistory ι E} {l l' : List E} {t p u : ℕ}

theorem Grows.refl (h : LogHistory ι E) : Grows termOf h h where
  leader := fun _ _ hc => hc
  canon := fun _ => List.prefix_rfl
  fresh := fun _ _ _ _ hl => hl

theorem Grows.leader_ne_none (hg : Grows termOf h h') (hlead : h.leader t ≠ none) :
    h'.leader t ≠ none := by
  obtain ⟨c, hc⟩ := Option.ne_none_iff_exists'.mp hlead
  rw [hg.leader t c hc]
  exact Option.some_ne_none c

theorem Grows.trans {h'' : LogHistory ι E} (hg : Grows termOf h h') (hg' : Grows termOf h' h'') :
    Grows termOf h h'' where
  leader := fun t c hc => hg'.leader t c (hg.leader t c hc)
  canon := fun t => (hg.canon t).trans (hg'.canon t)
  fresh := fun t l hlead hl hpre =>
    hg.fresh t l hlead hl (hg'.fresh t l (hg.leader_ne_none hlead) hl hpre)

/-! ## Sourced logs -/

namespace Sourced

theorem nil (h : LogHistory ι E) : h.Sourced termOf [] := by
  intro p e he
  simp at he

theorem of_isPrefix (hs : h.Sourced termOf l) (hpre : l' <+: l) : h.Sourced termOf l' := by
  intro p e he
  have hp := lt_length_of_getElem?_some he
  have htake : l.take (p + 1) = l'.take (p + 1) := take_eq_of_isPrefix hpre hp
  rw [← htake]
  exact hs p e (prefix_getElem?_some hpre he)

theorem mono (hg : Grows termOf h h') (hs : h.Sourced termOf l) : h'.Sourced termOf l :=
  fun p e he => (hs p e he).trans (hg.canon _)

/-- The last entry tells whose log this is. -/
theorem isPrefix_of_getLast? (hs : h.Sourced termOf l) {a : E} (ha : l.getLast? = some a) :
    l <+: h.canon (termOf a) := by
  have hne : l ≠ [] := by
    rintro rfl
    cases ha
  have hlast : l[l.length - 1]? = some a := by rw [← List.getLast?_eq_getElem?, ha]
  have hpos : 0 < l.length := List.length_pos_iff.mpr hne
  have hpre := hs _ a hlast
  rwa [Nat.sub_add_cancel hpos, List.take_length] at hpre

theorem push (hs : h.Sourced termOf l) {e : E} (he : l ++ [e] <+: h.canon (termOf e)) :
    h.Sourced termOf (l ++ [e]) := by
  intro p e' hp
  have hlt := lt_length_of_getElem?_some hp
  rw [List.length_append, List.length_singleton] at hlt
  rcases Nat.lt_succ_iff_lt_or_eq.mp hlt with hin | rfl
  · rw [List.getElem?_append_left hin] at hp
    rw [List.take_append_of_le_length hin]
    exact hs p e' hp
  · rw [List.getElem?_concat_length] at hp
    obtain rfl := Option.some.inj hp
    rw [List.take_of_length_le (by simp)]
    exact he

/-- Entries of one term at one position stand behind the same log. -/
theorem take_eq (hs : h.Sourced termOf l) (hs' : h.Sourced termOf l') {e e' : E}
    (he : l[p]? = some e) (he' : l'[p]? = some e') (hterm : termOf e = termOf e') :
    l.take (p + 1) = l'.take (p + 1) := by
  have hpre := hs p e he
  have hpre' := hs' p e' he'
  rw [hterm] at hpre
  -- two prefixes of one leader's log, of one length
  have hlen : (l.take (p + 1)).length = (l'.take (p + 1)).length := by
    rw [List.length_take_of_le (lt_length_of_getElem?_some he),
      List.length_take_of_le (lt_length_of_getElem?_some he')]
  exact (List.prefix_of_prefix_length_le hpre hpre' hlen.le).eq_of_length hlen

end Sourced

namespace Ok

theorem leader_ne_none (hok : h.Ok termOf) {e : E} (he : e ∈ h.canon t) :
    h.leader t ≠ none := by
  intro hnone
  rw [hok.led t hnone] at he
  cases he

/-- No entry of a sourced log is newer than its last. -/
theorem term_le_last (hok : h.Ok termOf) (hs : h.Sourced termOf l) {a e : E}
    (ha : l.getLast? = some a) (he : e ∈ l) : termOf e ≤ termOf a :=
  hok.term_le _ e ((hs.isPrefix_of_getLast? ha).subset he)

end Ok

/-! ## How losses and gains are inherited -/

theorem Lost.mono_term {u' : ℕ} (hl : h.Lost t p u) (hu : u ≤ u') : h.Lost t p u' := by
  obtain ⟨v, htv, hvu, hlead, hnot⟩ := hl
  exact ⟨v, htv, hvu.trans_le hu, hlead, hnot⟩

theorem Kept.mono_term {u' : ℕ} (hk : h.Kept t p u l) (hu : u ≤ u') : h.Kept t p u' l :=
  hk.imp_right fun hl => hl.mono_term hu

theorem Kept.mono_log (hk : h.Kept t p u l) (hl : l <+: l') : h.Kept t p u l' :=
  hk.imp_left fun hpre => hpre.trans hl

theorem take_canon (hg : Grows termOf h h') (hp : p < (h.canon t).length) :
    (h'.canon t).take (p + 1) = (h.canon t).take (p + 1) := take_eq_of_isPrefix (hg.canon t) hp

theorem Lost.mono (hok : h.Ok termOf) (hg : Grows termOf h h') (hp : p < (h.canon t).length)
    (hl : h.Lost t p u) : h'.Lost t p u := by
  obtain ⟨v, htv, hvu, hlead, hnot⟩ := hl
  refine ⟨v, htv, hvu, hg.leader_ne_none hlead, ?_⟩
  rw [take_canon hg hp]
  -- what is older than term `v` cannot have come into that leader's log later
  intro hin
  refine hnot (hg.fresh v _ hlead (fun e he => ?_) hin)
  exact (hok.term_le t e (List.mem_of_mem_take he)).trans_lt htv

theorem Kept.mono (hok : h.Ok termOf) (hg : Grows termOf h h') (hp : p < (h.canon t).length)
    (hk : h.Kept t p u l) : h'.Kept t p u l := by
  rcases hk with hpre | hl
  · refine Or.inl ?_
    rwa [take_canon hg hp]
  · exact Or.inr (hl.mono hok hg hp)

theorem own_iff (hg : Grows termOf h h') (hp : p < (h.canon t).length) :
    h'.Own termOf t p ↔ h.Own termOf t p := by
  unfold Own
  rw [prefix_getElem? (hg.canon t) hp]

theorem Own.lt_length (ho : h.Own termOf t p) : p < (h.canon t).length := by
  obtain ⟨e, he, -⟩ := ho
  exact lt_length_of_getElem?_some he

/-- What the voter has, an up-to-date candidate has too, unless a leader in between lost
it.  The last entries decide: of one term they make the two logs prefixes of one log, and a
newer one on the candidate's side comes from a leader in between. -/
theorem Kept.of_upToDate (hok : h.Ok termOf) (hs : h.Sourced termOf l)
    (hs' : h.Sourced termOf l') (hu : ∀ e ∈ l, termOf e < u) (hup : UpToDate termOf l l')
    (hown : h.Own termOf t p) (hk : h.Kept t p u l') : h.Kept t p u l := by
  rcases hk with hpre | hlost
  swap
  · exact Or.inr hlost
  obtain ⟨e, he, hterm⟩ := hown
  have hlen : ((h.canon t).take (p + 1)).length = p + 1 :=
    List.length_take_of_le (lt_length_of_getElem?_some he)
  have hetake : ((h.canon t).take (p + 1))[p]? = some e := by
    rw [List.getElem?_take_of_lt p.lt_succ_self, he]
  have hel' : e ∈ l' := hpre.subset (List.mem_of_getElem? hetake)
  have hne : l' ≠ [] := List.ne_nil_of_mem hel'
  have ha : l'.getLast? = some (l'.getLast hne) := List.getLast?_eq_some_getLast hne
  generalize l'.getLast hne = a at ha
  obtain ⟨b, hb, hcmp⟩ := hup a ha
  have hta : t ≤ termOf a := by
    rw [← hterm]
    exact hok.term_le_last hs' ha hel'
  have hla := hs'.isPrefix_of_getLast? ha
  have hlb := hs.isPrefix_of_getLast? hb
  rcases hcmp with hlt | ⟨heq, hle⟩
  · have hbl : b ∈ l := List.mem_of_getLast? hb
    have hbcanon : b ∈ h.canon (termOf b) := hlb.subset hbl
    by_cases hin : (h.canon t).take (p + 1) <+: h.canon (termOf b)
    · -- the candidate's last entry is newer than all of it, so it comes after
      refine Or.inl (List.prefix_of_prefix_length_le hin hlb ?_)
      by_contra hshort
      have hshort' : l.length ≤ p := by omega
      have hlast : l[l.length - 1]? = some b := by rw [← List.getLast?_eq_getElem?, hb]
      have hpos : 0 < l.length := List.length_pos_of_mem hbl
      have hb' : ((h.canon t).take (p + 1))[l.length - 1]? = some b := by
        have hcanon := prefix_getElem?_some hlb hlast
        rwa [prefix_getElem? hin (by omega)] at hcanon
      have hbt := hok.term_le t b (List.mem_of_mem_take (List.mem_of_getElem? hb'))
      omega
    · exact Or.inr ⟨termOf b, by omega, hu b hbl, hok.leader_ne_none hbcanon, hin⟩
  · rw [heq] at hla
    have hll : l' <+: l := List.prefix_of_prefix_length_le hla hlb hle
    exact Or.inl (hpre.trans hll)

end LogHistory

end Wardex.Lib
