import Wardex.Lib.SortedMap
import Wardex.Playbooks.Engine

/-! Templates.  The variables are substituted one after the other, in the order in which the map
iterates, each over the text that the ones before have left: a placeholder that comes from a
value, or that a value completes, is substituted as well. -/

namespace Wardex.Playbooks

open Wardex.Lib

def placeholder (key : String) : List Char := ['{'] ++ key.toList ++ ['}']

/-- A template is made of characters and placeholders. -/
inductive Piece where
  | char (c : Char)
  | hole (key : String)
deriving DecidableEq

section

variable (vars : Variables) (done : List String)

/-- What stands for a piece when the keys `done` have been substituted. -/
def Piece.text : Piece → List Char
  | char c => [c]
  | hole key => if key ∈ done then ((vars.get key).getD "").toList else placeholder key

def render (pieces : List Piece) : List Char := pieces.flatMap (Piece.text vars done)

/-- `{key}` occurs in the text as a placeholder of the template and not otherwise. -/
def OccursAsHole (pieces : List Piece) (key : String) (text : List Char) : Prop :=
  ∀ before behind, text = before ++ (placeholder key ++ behind) →
    ∃ left right, pieces = left ++ .hole key :: right ∧ before = render vars done left

end

/-- In every order of the variables, the result is the template with its placeholders
substituted, and no step substitutes anything else. -/
structure SubstitutesExactly (template : String) (vars : Variables) (pieces : List Piece) :
    Prop where
  reads : render vars [] pieces = template.toList
  result : ∀ order : Variables, order.Perm vars →
    (substituteTemplate template order).toList = render vars (vars.map Prod.fst) pieces
  untouched : ∀ (order rest : Variables) key value, (order ++ (key, value) :: rest).Perm vars →
    OccursAsHole vars (order.map Prod.fst) pieces key (substituteTemplate template order).toList

/-- Whatever keys have been substituted, another key occurs only as a placeholder. -/
structure Separate (template : String) (vars : Variables) (pieces : List Piece) : Prop where
  reads : render vars [] pieces = template.toList
  occurs : ∀ done key, done ⊆ vars.map Prod.fst → key ∈ vars.map Prod.fst → key ∉ done →
    OccursAsHole vars done pieces key (render vars done pieces)

section

variable {template : String} {vars : Variables} {done : List String} {pieces : List Piece}

theorem placeholder_ne_nil (key : String) : placeholder key ≠ [] := List.cons_ne_nil _ _

theorem substituteTemplate_snoc (order : Variables) (key value : String) :
    (substituteTemplate template (order ++ [(key, value)])).toList =
      replaceAll (placeholder key) value.toList (substituteTemplate template order).toList := by
  simp only [substituteTemplate, List.foldl_append, List.foldl_cons, List.foldl_nil,
    String.toList_ofList]
  rfl

theorem render_congr {done' : List String} (h : ∀ key, key ∈ done ↔ key ∈ done') :
    render vars done pieces = render vars done' pieces := by
  have htext : Piece.text vars done = Piece.text vars done' := by
    funext piece
    cases piece with
    | char c => rfl
    | hole key => simp only [Piece.text, h]
  rw [render, render, htext]

/-- Where a key occurs only as a placeholder, its step substitutes the placeholders. -/
theorem replaceAll_render {key value : String} (hvalue : vars.get key = some value)
    (hkey : key ∉ done)
    (h : OccursAsHole vars done pieces key (render vars done pieces)) :
    replaceAll (placeholder key) value.toList (render vars done pieces) =
      render vars (key :: done) pieces := by
  have hreplace : replaceAll (placeholder key) value.toList
      (pieces.flatMap (Piece.text vars done)) = pieces.flatMap fun piece =>
        if piece = .hole key then value.toList else Piece.text vars done piece := by
    refine replaceAll_flatMap (placeholder_ne_nil key) ?_ fun before behind hocc => ?_
    · rintro piece - rfl
      exact if_neg hkey
    · obtain ⟨left, right, hpieces, hleft⟩ := h before behind hocc
      exact ⟨left, _, right, hpieces, rfl, hleft.symm⟩
  rw [render, hreplace, render]
  refine congrArg (List.flatMap · pieces) ?_
  funext piece
  cases piece with
  | char c => rfl
  | hole other =>
    by_cases hother : other = key
    · simp [Piece.text, hother, hvalue]
    · simp [Piece.text, hother]

/-- The text after some of the variables, where each of them occurred only as a placeholder. -/
theorem substituteTemplate_eq_render (hkeys : (vars.map Prod.fst).Nodup)
    (hreads : render vars [] pieces = template.toList)
    (hocc : ∀ (order rest : Variables) key value, (order ++ (key, value) :: rest).Perm vars →
      (substituteTemplate template order).toList = render vars (order.map Prod.fst) pieces →
      OccursAsHole vars (order.map Prod.fst) pieces key
        (render vars (order.map Prod.fst) pieces)) {order rest : Variables}
    (hperm : (order ++ rest).Perm vars) :
    (substituteTemplate template order).toList = render vars (order.map Prod.fst) pieces := by
  induction order using List.reverseRecOn generalizing rest with
  | nil =>
    rw [substituteTemplate, List.foldl_nil, String.toList_ofList]
    exact hreads.symm
  | append_singleton order entry ih =>
    obtain ⟨key, value⟩ := entry
    rw [List.append_assoc, List.singleton_append] at hperm
    have hbefore := ih hperm
    have hnodup : ((order ++ (key, value) :: rest).map Prod.fst).Nodup :=
      (hperm.map Prod.fst).nodup_iff.mpr hkeys
    have hkey : key ∉ order.map Prod.fst := by
      rw [List.map_append, List.map_cons] at hnodup
      exact fun hmem => (List.nodup_append.mp hnodup).2.2 key hmem key List.mem_cons_self rfl
    have hvalue : vars.get key = some value :=
      lookup_eq_some hkeys (hperm.subset (List.mem_append_right _ List.mem_cons_self))
    rw [substituteTemplate_snoc, hbefore,
      replaceAll_render hvalue hkey (hocc order rest key value hperm hbefore)]
    exact render_congr fun k => by simp [or_comm]

/-- An order of the variables that begins with the given keys and goes on with another one. -/
theorem exists_order {done : List String} {key : String}
    (hdone : done ⊆ vars.map Prod.fst) (hkey : key ∈ vars.map Prod.fst) (hnew : key ∉ done) :
    ∃ (order rest : Variables) (value : String), (order ++ (key, value) :: rest).Perm vars ∧
      ∀ k, k ∈ order.map Prod.fst ↔ k ∈ done := by
  obtain ⟨value, hmem⟩ : ∃ value, (key, value) ∈ vars := by
    obtain ⟨⟨k, value⟩, hmem, rfl⟩ := List.mem_map.mp hkey
    exact ⟨value, hmem⟩
  let later := vars.filter fun p => p.1 ∉ done
  obtain ⟨rest, hrest⟩ : ∃ rest, later.Perm ((key, value) :: rest) :=
    ⟨_, List.perm_cons_erase (List.mem_filter.mpr ⟨hmem, by simpa using hnew⟩)⟩
  refine ⟨vars.filter fun p => p.1 ∈ done, rest, value, ?_, fun k => ?_⟩
  · have hsplit := List.filter_append_perm (fun p : String × String => decide (p.1 ∈ done)) vars
    refine (hrest.symm.append_left _).trans (List.Perm.trans ?_ hsplit)
    simp [later]
  · simp only [List.mem_map, List.mem_filter, decide_eq_true_eq]
    constructor
    · rintro ⟨p, ⟨-, hp⟩, rfl⟩
      exact hp
    · intro hk
      obtain ⟨p, hp, rfl⟩ := List.mem_map.mp (hdone hk)
      exact ⟨p, ⟨hp, hk⟩, rfl⟩

theorem OccursAsHole.congr {done' : List String} {key : String} {text : List Char}
    (h : ∀ key, key ∈ done ↔ key ∈ done') (hocc : OccursAsHole vars done pieces key text) :
    OccursAsHole vars done' pieces key text := by
  intro before behind htext
  obtain ⟨left, right, hpieces, hleft⟩ := hocc before behind htext
  exact ⟨left, right, hpieces, hleft.trans (render_congr h)⟩

theorem SubstitutesExactly.separate (hkeys : (vars.map Prod.fst).Nodup)
    (h : SubstitutesExactly template vars pieces) : Separate template vars pieces := by
  refine ⟨h.reads, fun done key hdone hkey hnew => ?_⟩
  obtain ⟨order, rest, value, hperm, hsame⟩ := exists_order hdone hkey hnew
  have htext := substituteTemplate_eq_render hkeys h.reads
    (fun order rest key value hperm heq => heq ▸ h.untouched order rest key value hperm) hperm
  have hocc := h.untouched order rest key value hperm
  rw [htext, render_congr hsame] at hocc
  exact hocc.congr hsame

theorem Separate.substitutesExactly (hkeys : (vars.map Prod.fst).Nodup)
    (h : Separate template vars pieces) : SubstitutesExactly template vars pieces := by
  have hocc (order rest : Variables) (key value : String)
      (hperm : (order ++ (key, value) :: rest).Perm vars) :
      OccursAsHole vars (order.map Prod.fst) pieces key
        (render vars (order.map Prod.fst) pieces) := by
    have hnodup : ((order ++ (key, value) :: rest).map Prod.fst).Nodup :=
      (hperm.map Prod.fst).nodup_iff.mpr hkeys
    rw [List.map_append, List.map_cons] at hnodup
    refine h.occurs _ key (fun k hk => ?_) ?_ fun hmem =>
      (List.nodup_append.mp hnodup).2.2 key hmem key List.mem_cons_self rfl
    · refine (hperm.map Prod.fst).subset ?_
      rw [List.map_append]
      exact List.mem_append_left _ hk
    · exact List.mem_map_of_mem
        (hperm.subset (List.mem_append_right order List.mem_cons_self))
  have htext {order rest : Variables} (hperm : (order ++ rest).Perm vars) :=
    substituteTemplate_eq_render hkeys h.reads
      (fun order rest key value hperm _ => hocc order rest key value hperm) hperm
  refine ⟨h.reads, fun order hperm => ?_, fun order rest key value hperm => ?_⟩
  · rw [htext (by rwa [List.append_nil] : (order ++ []).Perm vars)]
    exact render_congr fun key => (hperm.map Prod.fst).mem_iff
  · rw [htext hperm]
    exact hocc order rest key value hperm

end

/-- Substitution is exact if and only if, whatever other keys have been substituted, a key occurs
only as a placeholder of the template. -/
theorem substitutesExactly_iff (template : String) (vars : Variables)
    (hkeys : (vars.map Prod.fst).Nodup) :
    (∃ pieces, SubstitutesExactly template vars pieces) ↔
      ∃ pieces, Separate template vars pieces :=
  exists_congr fun _ => ⟨fun h => h.separate hkeys, fun h => h.substitutesExactly hkeys⟩

/-! ## Values without braces -/

theorem exists_piece {vars : Variables} {done : List String} {pieces : List Piece}
    {before behind : List Char} {c : Char} (h : render vars done pieces = before ++ c :: behind) :
    ∃ left piece right a b, pieces = left ++ piece :: right ∧
      piece.text vars done = a ++ c :: b ∧ before = render vars done left ++ a ∧
      behind = b ++ render vars done right := by
  induction pieces generalizing before with
  | nil => simp [render] at h
  | cons piece pieces ih =>
    rw [render, List.flatMap_cons] at h
    rcases List.append_eq_append_iff.mp h with ⟨a, rfl, hrest⟩ | ⟨b, htext, hrest⟩
    · obtain ⟨left, piece', right, a', b', rfl, htext, rfl, rfl⟩ := ih hrest
      exact ⟨piece :: left, piece', right, a', b', rfl, htext, by simp [render], rfl⟩
    · cases b with
      | nil =>
        have hpieces : render vars done pieces = [] ++ c :: behind := hrest.symm
        obtain ⟨left, piece', right, a', b', rfl, htext', hbefore, rfl⟩ := ih hpieces
        refine ⟨piece :: left, piece', right, a', b', rfl, htext', ?_, rfl⟩
        rw [List.append_nil] at htext
        rw [← htext, render, List.flatMap_cons, List.append_assoc, ← render, ← hbefore,
          List.append_nil]
      | cons d b =>
        obtain ⟨rfl, rfl⟩ := List.cons.inj hrest
        exact ⟨[], piece, pieces, before, b, rfl, htext, rfl, rfl⟩

theorem mem_of_get_eq_some {vars : Variables} {key value : String}
    (h : vars.get key = some value) : (key, value) ∈ vars := by
  induction vars with
  | nil => cases h
  | cons p vars ih =>
    by_cases hkey : key = p.1
    · rw [Variables.get, hkey, List.lookup_cons_self] at h
      rw [hkey, ← Option.some.inj h]
      exact List.mem_cons_self
    · rw [Variables.get, List.lookup_cons, beq_false_of_ne hkey] at h
      exact List.mem_cons_of_mem p (ih h)

/-- A placeholder without braces inside ends at the first closing brace. -/
theorem placeholder_inj {key other : String} {a b : List Char} (hkey : '}' ∉ key.toList)
    (hother : '}' ∉ other.toList)
    (h : key.toList ++ '}' :: a = other.toList ++ '}' :: b) : key = other := by
  have hsplit := splitOnce_append hkey a
  rw [h, splitOnce_append hother b] at hsplit
  exact String.toList_inj.mp (Prod.mk.inj (Option.some.inj hsplit)).1.symm

/-- No step substitutes anything else where values and keys have no braces and a brace of the
template opens a placeholder. -/
theorem separate_of_plain {template : String} {vars : Variables} {pieces : List Piece}
    (hreads : render vars [] pieces = template.toList)
    (hchars : ∀ c, .char c ∈ pieces → c ≠ '{')
    (hholes : ∀ key, .hole key ∈ pieces → '{' ∉ key.toList ∧ '}' ∉ key.toList)
    (hkeys : ∀ p ∈ vars, '}' ∉ p.1.toList) (hvalues : ∀ p ∈ vars, '{' ∉ p.2.toList) :
    Separate template vars pieces := by
  refine ⟨hreads, fun done key _ hkey _ before behind htext => ?_⟩
  have hclosing : '}' ∉ key.toList := by
    obtain ⟨p, hp, rfl⟩ := List.mem_map.mp hkey
    exact hkeys p hp
  obtain ⟨left, piece, right, a, b, hpieces, hpiece, hbefore, hbehind⟩ := exists_piece htext
  have hmem : piece ∈ pieces := hpieces ▸ List.mem_append_right left List.mem_cons_self
  cases piece with
  | char c =>
    -- a character of the template is no opening brace
    have hopen : '{' ∈ Piece.text vars done (.char c) :=
      hpiece ▸ List.mem_append_right a List.mem_cons_self
    exact absurd (List.mem_singleton.mp hopen).symm (hchars c hmem)
  | hole other =>
    rw [Piece.text] at hpiece
    split_ifs at hpiece with hdone
    · have hopen : '{' ∈ ((vars.get other).getD "").toList :=
        hpiece ▸ List.mem_append_right a List.mem_cons_self
      cases hvalue : vars.get other with
      | none => simp [hvalue] at hopen
      | some value =>
        rw [hvalue, Option.getD_some] at hopen
        exact absurd hopen (hvalues (other, value) (mem_of_get_eq_some hvalue))
    · cases a with
      | nil =>
        obtain ⟨-, rfl⟩ := List.cons.inj hpiece
        rw [List.append_nil] at hbefore
        have hsame : key = other := by
          have hbraces : key.toList ++ '}' :: behind =
              other.toList ++ '}' :: render vars done right := by
            simpa using hbehind
          exact placeholder_inj hclosing (hholes other hmem).2 hbraces
        exact ⟨left, right, hsame ▸ hpieces, hbefore⟩
      | cons d a =>
        -- no brace stands behind the first character of a placeholder
        have htail : other.toList ++ ['}'] = a ++ '{' :: b := congrArg List.tail hpiece
        have hopen : '{' ∈ other.toList ++ ['}'] :=
          htail ▸ List.mem_append_right a List.mem_cons_self
        rcases List.mem_append.mp hopen with hmem' | hmem'
        · exact absurd hmem' (hholes other hmem).1
        · exact absurd hmem' (by decide)

/-- A value that is itself a placeholder is substituted, or not, as the map iterates. -/
theorem order_matters :
    substituteTemplate "{a}" [("a", "{b}"), ("b", "x")] = "x" ∧
      substituteTemplate "{a}" [("b", "x"), ("a", "{b}")] = "{b}" ∧
      ¬ ∃ pieces, SubstitutesExactly "{a}" [("a", "{b}"), ("b", "x")] pieces := by
  refine ⟨by decide +kernel, by decide +kernel, ?_⟩
  rintro ⟨pieces, hexact⟩
  have hsame := (hexact.result _ (.refl _)).trans (hexact.result _ (List.Perm.swap ..)).symm
  exact absurd hsame (by decide +kernel)

def alertVars : Variables := [("host", "web-1"), ("score", "7.5")]

theorem substitutesExactly_alert :
    ∃ pieces, SubstitutesExactly "{host}: {score}" alertVars pieces := by
  refine (substitutesExactly_iff "{host}: {score}" alertVars (by decide)).mpr
    ⟨[.hole "host", .char ':', .char ' ', .hole "score"], separate_of_plain ?_ ?_ ?_ ?_ ?_⟩
  all_goals simp [alertVars]
  all_goals decide +kernel

end Wardex.Playbooks
