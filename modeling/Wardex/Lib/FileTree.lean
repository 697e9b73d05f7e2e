import Mathlib.Data.List.Basic
import Mathlib.Data.List.Infix

/-! A tree of directories and files, as the nodes at the paths of a file system, and the operations
on it. An operation that fails keeps what it has changed so far. -/

namespace Wardex.Lib

inductive Node (β : Type*) where
  | dir
  | file (content : β)
deriving DecidableEq

inductive FileError where
  | alreadyExists
  | notADirectory
  | isADirectory
  | notFound
deriving DecidableEq

structure FileTree (β : Type*) where
  nodes : List (List String × Node β)

/-- An operation on a tree of files with contents in `β`, and its own errors. -/
abbrev TreeOp (β ε α : Type) := EStateM ε (FileTree β) α

abbrev FileOp (β α : Type) := TreeOp β FileError α

variable {α α' β ε ε' : Type}

namespace FileTree

def empty : FileTree β := ⟨[]⟩

def lookup (t : FileTree β) (path : List String) : Option (Node β) := t.nodes.lookup path

def set (t : FileTree β) (path : List String) (node : Node β) : FileTree β :=
  ⟨(path, node) :: t.nodes.filter fun e => e.1 ≠ path⟩

/-- Without the nodes at or below the path. -/
def without (t : FileTree β) (path : List String) : FileTree β :=
  ⟨t.nodes.filter fun e => ¬ path <+: e.1⟩

theorem lookup_filter_of_pos {κ γ : Type*} [BEq κ] [LawfulBEq κ] {l : List (κ × γ)} {k : κ}
    (keep : κ → Bool) (h : keep k) : (l.filter fun e => keep e.1).lookup k = l.lookup k := by
  induction l with
  | nil => rfl
  | cons e l ih =>
    rw [List.filter_cons]
    by_cases hkeep : keep e.1
    · rw [if_pos hkeep, List.lookup_cons, List.lookup_cons, ih]
    · have hk : (k == e.1) = false := beq_eq_false_iff_ne.mpr fun heq => hkeep (heq ▸ h)
      rw [if_neg hkeep, List.lookup_cons, hk, ih]

theorem lookup_set_self (t : FileTree β) (path : List String) (node : Node β) :
    (t.set path node).lookup path = some node := by
  simp [lookup, set]

theorem lookup_set_of_ne (t : FileTree β) {path other : List String} (h : other ≠ path)
    (node : Node β) : (t.set path node).lookup other = t.lookup other := by
  have hbeq : (other == path) = false := beq_eq_false_iff_ne.mpr h
  simp only [lookup, set, List.lookup_cons, hbeq]
  have hkeep : decide (other ≠ path) = true := decide_eq_true h
  exact lookup_filter_of_pos (fun p => decide (p ≠ path)) hkeep

theorem lookup_without (t : FileTree β) {path other : List String} (h : ¬ path <+: other) :
    (t.without path).lookup other = t.lookup other :=
  lookup_filter_of_pos (fun p => decide (¬ path <+: p)) (decide_eq_true h)

end FileTree

/-! ### Operations -/

def createDir (path : List String) : FileOp β Unit := fun t =>
  match t.lookup path with
  | some .dir => .ok () t
  | some (.file _) => .error .alreadyExists t
  | none => .ok () (t.set path .dir)

def createDirs : List (List String) → FileOp β Unit
  | [] => pure ()
  | path :: paths => do
    createDir path
    createDirs paths

/-- The directory with the directories above it. -/
def createDirAll (path : List String) : FileOp β Unit := createDirs path.inits.tail

def writeFile (path : List String) (content : β) : FileOp β Unit := fun t =>
  match t.lookup path.dropLast, t.lookup path with
  | none, _ => .error .notFound t
  | some (.file _), _ => .error .notADirectory t
  | some .dir, some .dir => .error .isADirectory t
  | some .dir, _ => .ok () (t.set path (.file content))

def readFile (path : List String) : FileOp β β := fun t =>
  match t.lookup path with
  | some (.file content) => .ok content t
  | some .dir => .error .isADirectory t
  | none => .error .notFound t

def removeDirAll (path : List String) : FileOp β Unit := fun t =>
  match t.lookup path with
  | some .dir => .ok () (t.without path)
  | some (.file _) => .error .notADirectory t
  | none => .error .notFound t

/-- The tree after the operation, whether it failed or not. -/
def treeAfter (op : TreeOp β ε α) (t : FileTree β) : FileTree β :=
  match op t with
  | .ok _ t' => t'
  | .error _ t' => t'

/-- The operation changes nothing at a path with the property. -/
def Leaves (P : List String → Prop) (op : TreeOp β ε α) : Prop :=
  ∀ t path, P path → (treeAfter op t).lookup path = t.lookup path

variable {P : List String → Prop}

theorem leaves_pure (a : α) : Leaves P (pure a : TreeOp β ε α) := fun _ _ _ => rfl

theorem leaves_throw (e : ε) : Leaves P (throw e : TreeOp β ε α) := fun _ _ _ => rfl

theorem Leaves.bind {op : TreeOp β ε α} {next : α → TreeOp β ε α'} (h : Leaves P op)
    (hnext : ∀ a, Leaves P (next a)) : Leaves P (op >>= next) := by
  intro t path hpath
  have hop := h t path hpath
  unfold treeAfter at hop ⊢
  show (match EStateM.bind op next t with
    | .ok _ t' => t'
    | .error _ t' => t').lookup path = t.lookup path
  unfold EStateM.bind
  cases hresult : op t with
  | ok a t' =>
    rw [hresult] at hop
    exact (hnext a t' path hpath).trans hop
  | error e t' =>
    rw [hresult] at hop
    exact hop

theorem Leaves.adaptExcept {op : TreeOp β ε α} (h : Leaves P op) (f : ε → ε') :
    Leaves P (EStateM.adaptExcept f op) := by
  intro t path hpath
  have hop := h t path hpath
  unfold treeAfter EStateM.adaptExcept at *
  cases hresult : op t with
  | ok a t' => simpa only [hresult] using hop
  | error e t' => simpa only [hresult] using hop

theorem leaves_createDir {path : List String} (h : ¬ P path) :
    Leaves (β := β) P (createDir path) := by
  intro t other hother
  have hne : other ≠ path := fun heq => h (heq ▸ hother)
  unfold treeAfter createDir
  cases hlookup : t.lookup path with
  | none => exact t.lookup_set_of_ne hne .dir
  | some node =>
    cases node with
    | dir => rfl
    | file content => rfl

theorem leaves_createDirs {paths : List (List String)} (h : ∀ path ∈ paths, ¬ P path) :
    Leaves (β := β) P (createDirs paths) := by
  induction paths with
  | nil => exact leaves_pure ()
  | cons path paths ih =>
    refine (leaves_createDir (h path List.mem_cons_self)).bind fun _ => ih ?_
    exact fun p hp => h p (List.mem_cons_of_mem path hp)

/-- Below a directory of the root nothing else is changed. -/
theorem leaves_createDirAll (name : String) (rest : List String) :
    Leaves (fun path => ¬ [name] <+: path) (createDirAll (β := β) (name :: rest)) := by
  apply leaves_createDirs
  intro path hpath
  rw [List.inits_cons, List.tail_cons] at hpath
  obtain ⟨first, -, rfl⟩ := List.mem_map.mp hpath
  exact not_not_intro ⟨first, rfl⟩

theorem leaves_writeFile {path : List String} (h : ¬ P path) (content : β) :
    Leaves P (writeFile path content) := by
  intro t other hother
  have hne : other ≠ path := fun heq => h (heq ▸ hother)
  unfold treeAfter writeFile
  cases hparent : t.lookup path.dropLast with
  | none => rfl
  | some parent =>
    cases parent with
    | file old => rfl
    | dir =>
      cases hold : t.lookup path with
      | none => exact t.lookup_set_of_ne hne _
      | some node =>
        cases node with
        | dir => rfl
        | file old => exact t.lookup_set_of_ne hne _

theorem leaves_readFile (path : List String) : Leaves (β := β) P (readFile path) := by
  intro t other hother
  unfold treeAfter readFile
  cases hlookup : t.lookup path with
  | none => rfl
  | some node =>
    cases node with
    | dir => rfl
    | file content => rfl

theorem leaves_removeDirAll {path : List String} (h : ∀ other, P other → ¬ path <+: other) :
    Leaves (β := β) P (removeDirAll path) := by
  intro t other hother
  unfold treeAfter removeDirAll
  cases hlookup : t.lookup path with
  | none => rfl
  | some node =>
    cases node with
    | file content => rfl
    | dir => exact t.lookup_without (h other hother)

/-! ### What succeeded -/

theorem treeOp_bind_eq_ok {op : TreeOp β ε α} {next : α → TreeOp β ε α'} {t t' : FileTree β}
    {b : α'} :
    (op >>= next) t = .ok b t' ↔ ∃ a s, op t = .ok a s ∧ next a s = .ok b t' := by
  show EStateM.bind op next t = _ ↔ _
  unfold EStateM.bind
  cases op t with
  | ok a s => simp
  | error e s => simp

theorem adaptExcept_eq_ok {op : TreeOp β ε α} {f : ε → ε'} {t t' : FileTree β} {a : α} :
    EStateM.adaptExcept f op t = .ok a t' ↔ op t = .ok a t' := by
  unfold EStateM.adaptExcept
  cases op t with
  | ok a s => simp
  | error e s => simp

theorem eq_set_of_writeFile {path : List String} {content : β} {t t' : FileTree β}
    (h : writeFile path content t = .ok () t') : t' = t.set path (.file content) := by
  unfold writeFile at h
  split at h
  · cases h
  · cases h
  · cases h
  · cases h
    rfl

theorem lookup_of_readFile {path : List String} {content : β} {t t' : FileTree β}
    (h : readFile path t = .ok content t') : t' = t ∧ t.lookup path = some (.file content) := by
  unfold readFile at h
  split at h
  · next hlookup =>
    cases h
    exact ⟨rfl, hlookup⟩
  · cases h
  · cases h

/-- Directories are made only where there is nothing. -/
theorem lookup_of_createDirs {paths : List (List String)} {path : List String} {node : Node β}
    {t t' : FileTree β} (h : createDirs paths t = .ok () t') (hnode : t.lookup path = some node) :
    t'.lookup path = some node := by
  induction paths generalizing t with
  | nil =>
    cases h
    exact hnode
  | cons first paths ih =>
    obtain ⟨_, s, hfirst, hrest⟩ := treeOp_bind_eq_ok.mp h
    refine ih hrest ?_
    unfold createDir at hfirst
    split at hfirst
    · cases hfirst
      exact hnode
    · cases hfirst
    · next hnone =>
      cases hfirst
      have hne : path ≠ first := by
        rintro rfl
        rw [hnone] at hnode
        exact absurd hnode (by simp)
      rw [t.lookup_set_of_ne hne, hnode]

end Wardex.Lib
