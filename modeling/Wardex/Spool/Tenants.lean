import Wardex.Spool.Capacity
import Wardex.Spool.Plain

/-! One tenant's deliveries leave the entries of all others where they are. -/

namespace Wardex.Spool

section Lists

variable {α : Type*} (p : α → Bool) (l : List α)

theorem filter_not_eraseP : (l.eraseP p).filter (fun a => !p a) = l.filter fun a => !p a := by
  induction l with
  | nil => rfl
  | cons a l ih =>
    cases hp : p a with
    | true => rw [List.eraseP_cons_of_pos hp, List.filter_cons_of_neg (by simp [hp])]
    | false =>
      have hneg : ¬ p a = true := by simp [hp]
      rw [List.eraseP_cons_of_neg hneg, List.filter_cons, List.filter_cons, ih]

theorem filter_eraseP_self : (l.eraseP p).filter p = (l.filter p).tail := by
  induction l with
  | nil => rfl
  | cons a l ih =>
    cases hp : p a with
    | true => rw [List.eraseP_cons_of_pos hp, List.filter_cons_of_pos hp, List.tail_cons]
    | false =>
      have hneg : ¬ p a = true := by simp [hp]
      rw [List.eraseP_cons_of_neg hneg, List.filter_cons_of_neg hneg, List.filter_cons_of_neg hneg,
        ih]

variable {α : Type*} {l : List (Option α)}

theorem reduceOption_head?_tail (h : ∀ a ∈ l, a.isSome) :
    l.reduceOption.head? = l.head?.join ∧ l.reduceOption.tail = l.tail.reduceOption := by
  cases l with
  | nil => exact ⟨rfl, rfl⟩
  | cons a l =>
    obtain ⟨b, rfl⟩ := Option.isSome_iff_exists.mp (h a List.mem_cons_self)
    rw [List.reduceOption_cons_of_some]
    exact ⟨rfl, rfl⟩

end Lists

namespace EncryptedSpool

variable (sha256 : List UInt8 → Vector UInt8 32) (json : SerdeJson)

/-- All entries of the spool decrypt and parse. -/
def Readable (s : EncryptedSpool) : Prop := ∀ e ∈ s.queue, (s.read sha256 json e).isSome

/-- An encrypted entry is read as one of the tenant's. -/
def belongs (s : EncryptedSpool) (tenantId : Option String) (encrypted : List UInt8) : Bool :=
  ofTenant tenantId (s.read sha256 json encrypted)

/-- Nothing that is not the tenant's has changed: the entries stand in the same order, with or
without a tenant, and every other tenant lists and peeks at what it did. -/
structure Undisturbed (tenantId : String) (s s' : EncryptedSpool) : Prop where
  others : s'.queue.filter (fun e => !s'.belongs sha256 json (some tenantId) e) =
    s.queue.filter fun e => !s.belongs sha256 json (some tenantId) e
  entries : ∀ u : Option String, u ≠ some tenantId →
    (s'.plain sha256 json).entries.filter (ofTenant u) =
      (s.plain sha256 json).entries.filter (ofTenant u)
  listed : ∀ u, u ≠ tenantId →
    s'.entriesForTenant sha256 json u = s.entriesForTenant sha256 json u
  peeked : ∀ u, u ≠ tenantId → s'.peekForTenant sha256 json u = s.peekForTenant sha256 json u

variable (s : EncryptedSpool)

theorem entriesForTenant_eq (tenantId : String) : s.entriesForTenant sha256 json tenantId =
    ((s.plain sha256 json).entries.filter (ofTenant (some tenantId))).reduceOption := by
  unfold entriesForTenant
  change _ = ((s.queue.map (s.read sha256 json)).filter _).reduceOption
  induction s.queue with
  | nil => rfl
  | cons encrypted queue ih =>
    rw [List.map_cons, List.filter_cons]
    cases hread : s.read sha256 json encrypted with
    | none =>
      rw [List.filterMap_cons_none hread, ih]
      rfl
    | some entry =>
      rw [List.filterMap_cons_some hread, List.filter_cons, ih]
      change _ = List.reduceOption (if decide (entry.tenantId = some tenantId) = true then _ else _)
      split_ifs <;> rfl

theorem peekForTenant_eq (tenantId : String) :
    s.peekForTenant sha256 json tenantId = (s.entriesForTenant sha256 json tenantId).head? := by
  unfold peekForTenant entriesForTenant
  rw [List.filter_filterMap, List.head?_filterMap]
  congr 1
  funext encrypted
  cases s.read sha256 json encrypted with
  | none => rfl
  | some entry => by_cases h : entry.tenantId = some tenantId <;> simp [Option.filter, h]

variable {s} {s' : EncryptedSpool} {tenantId : String}

theorem read_eq_of_key (hkey : s'.key = s.key) : s'.read sha256 json = s.read sha256 json := by
  funext encrypted
  rw [read, read, hkey]

theorem undisturbed_of_others (hkey : s'.key = s.key)
    (hothers : s'.queue.filter (fun e => !s.belongs sha256 json (some tenantId) e) =
      s.queue.filter fun e => !s.belongs sha256 json (some tenantId) e) :
    Undisturbed sha256 json tenantId s s' := by
  have hread : s'.read sha256 json = s.read sha256 json := read_eq_of_key sha256 json hkey
  have hbelongs : s'.belongs sha256 json = s.belongs sha256 json := by
    funext u encrypted
    rw [belongs, belongs, hread]
  -- what is another's is not the tenant's
  have hdistinct (u : Option String) (hu : u ≠ some tenantId) (queue : List (List UInt8)) :
      (queue.filter fun e => !s.belongs sha256 json (some tenantId) e).filter
          (s.belongs sha256 json u) = queue.filter (s.belongs sha256 json u) := by
    rw [List.filter_filter]
    apply List.filter_congr
    intro encrypted _
    unfold belongs ofTenant
    cases s.read sha256 json encrypted with
    | none => rfl
    | some entry =>
      by_cases h : entry.tenantId = u
      · simp [h, hu]
      · simp [h]
  have hqueue (u : Option String) (hu : u ≠ some tenantId) :
      s'.queue.filter (s.belongs sha256 json u) = s.queue.filter (s.belongs sha256 json u) := by
    rw [← hdistinct u hu, hothers, hdistinct u hu]
  have hentries (u : Option String) (hu : u ≠ some tenantId) :
      (s'.plain sha256 json).entries.filter (ofTenant u) =
        (s.plain sha256 json).entries.filter (ofTenant u) := by
    unfold plain
    dsimp only
    rw [hread, List.filter_map, List.filter_map]
    exact congrArg (List.map _) (hqueue u hu)
  have hlisted (u : String) (hu : u ≠ tenantId) :
      s'.entriesForTenant sha256 json u = s.entriesForTenant sha256 json u := by
    rw [entriesForTenant_eq, entriesForTenant_eq, hentries (some u) fun h => hu (Option.some.inj h)]
  refine ⟨?_, hentries, hlisted, fun u hu => ?_⟩
  · rw [hbelongs]
    exact hothers
  · rw [peekForTenant_eq, peekForTenant_eq, hlisted u hu]

variable (s tenantId)

theorem undisturbed_dequeueForTenant :
    Undisturbed sha256 json tenantId s (s.dequeueForTenant sha256 json tenantId).1 := by
  rw [dequeueForTenant_eq]
  exact undisturbed_of_others sha256 json rfl (filter_not_eraseP _ _)

variable {sha256 json s} in
theorem undisturbed_drainForTenant (h : s.Readable sha256 json) :
    Undisturbed sha256 json tenantId s (s.drainForTenant sha256 json tenantId).1 := by
  unfold drainForTenant
  rw [splitTenant_eq]
  refine undisturbed_of_others sha256 json rfl ?_
  dsimp only
  rw [List.filter_filter]
  apply List.filter_congr
  intro encrypted hmem
  rw [h encrypted hmem, Bool.true_and]
  exact Bool.and_self _

/-- A tenant takes its first entry, or all of its entries in order, and no one else notices. -/
theorem tenant_isolation (h : s.Readable sha256 json) :
    ((s.dequeueForTenant sha256 json tenantId).2 =
        (s.entriesForTenant sha256 json tenantId).head? ∧
      (s.dequeueForTenant sha256 json tenantId).1.entriesForTenant sha256 json tenantId =
        (s.entriesForTenant sha256 json tenantId).tail ∧
      Undisturbed sha256 json tenantId s (s.dequeueForTenant sha256 json tenantId).1) ∧
    (s.drainForTenant sha256 json tenantId).2 = s.entriesForTenant sha256 json tenantId ∧
      (s.drainForTenant sha256 json tenantId).1.entriesForTenant sha256 json tenantId = [] ∧
      Undisturbed sha256 json tenantId s (s.drainForTenant sha256 json tenantId).1 := by
  have hdequeue := s.shown_dequeueForTenant sha256 json tenantId
  have hdrain := s.shown_drainForTenant sha256 json tenantId
  have hsome : ∀ e ∈ (s.plain sha256 json).entries.filter (ofTenant (some tenantId)), e.isSome := by
    intro e he
    obtain ⟨entry, rfl, -⟩ := (Option.any_eq_true _ _).mp (List.mem_filter.mp he).2
    rfl
  obtain ⟨hhead, htail⟩ := reduceOption_head?_tail hsome
  refine ⟨⟨?_, ?_, s.undisturbed_dequeueForTenant sha256 json tenantId⟩, ?_, ?_,
    undisturbed_drainForTenant tenantId h⟩
  · rw [entriesForTenant_eq, hhead, List.head?_filter]
    exact congrArg Prod.snd hdequeue
  · have hplain : (s.dequeueForTenant sha256 json tenantId).1.plain sha256 json =
        ((s.plain sha256 json).dequeueForTenant tenantId).1 := congrArg Prod.fst hdequeue
    rw [entriesForTenant_eq, entriesForTenant_eq, htail, ← filter_eraseP_self, hplain]
    rfl
  · rw [entriesForTenant_eq]
    exact congrArg Prod.snd hdrain
  · have hplain : (s.drainForTenant sha256 json tenantId).1.plain sha256 json =
        ((s.plain sha256 json).drainForTenant tenantId).1 := congrArg Prod.fst hdrain
    have hnone : (((s.plain sha256 json).drainForTenant tenantId).1.entries.filter
        (ofTenant (some tenantId))) = [] := by
      rw [List.filter_eq_nil_iff]
      intro e he
      have hkept := (List.mem_filter.mp he).2
      rw [Bool.and_eq_true, Bool.not_eq_true'] at hkept
      rw [hkept.2]
      exact Bool.false_ne_true
    rw [entriesForTenant_eq, hplain, hnone]
    rfl

end EncryptedSpool

def acmeEntry : SpoolEntry := { firstEntry with tenantId := some "acme" }

def globexEntry : SpoolEntry := { acmeEntry with seq := 2, tenantId := some "globex" }

/-- A spool that holds an entry of each of two tenants. -/
def sharedSpool : EncryptedSpool :=
  ((keySpool 8).after zeroDigest (plainJson [acmeEntry, globexEntry])
    (.enqueue "a" "siem" "t1" (some "acme") zeroNonce)).after zeroDigest
      (plainJson [acmeEntry, globexEntry]) (.enqueue "a" "siem" "t1" (some "globex") zeroNonce)

theorem tenant_isolation_shared :
    (sharedSpool.dequeueForTenant zeroDigest (plainJson [acmeEntry, globexEntry]) "globex").2 =
      (sharedSpool.entriesForTenant zeroDigest (plainJson [acmeEntry, globexEntry])
        "globex").head? :=
  (EncryptedSpool.tenant_isolation zeroDigest (plainJson [acmeEntry, globexEntry]) sharedSpool
    "globex" (by unfold EncryptedSpool.Readable; decide +kernel)).1.1

end Wardex.Spool
