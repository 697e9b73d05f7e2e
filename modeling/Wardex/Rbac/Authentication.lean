import Wardex.Audit.Chain
import Wardex.Audit.Log
import Wardex.Lib.KeyMap
import Wardex.Lib.Run

/-! The store of API users, and who is authenticated by which string: a user's token and the
digest under which it is stored are accepted alike, and nothing else is.  SHA-256 is a parameter;
every operation holds both locks. -/

namespace Wardex.Rbac

open Wardex.Lib Wardex.Audit

inductive Role where
  | admin
  | analyst
  | viewer
  | serviceAccount
deriving DecidableEq

structure User where
  username : String
  role : Role
  tokenHash : String
  enabled : Bool
  createdAt : String
  tenantId : Option String
deriving DecidableEq

/-- `tokens` finds the name of a user by the digest of its token. -/
structure RbacStore where
  users : KeyMap String User
  tokens : KeyMap String String

def tokenHashPrefix : String := "sha256:"

/-- The string has the form of a digest. -/
def isDigest (s : String) : Bool := tokenHashPrefix.toList <+: s.toList

section

variable (sha256 : List UInt8 → List UInt8)

def hashToken (token : String) : String := tokenHashPrefix ++ sha256Hex sha256 (asBytes token)

def tokenLookupKey (tokenOrHash : String) : String :=
  if isDigest tokenOrHash then tokenOrHash else hashToken sha256 tokenOrHash

end

namespace RbacStore

def new : RbacStore where
  users := .empty
  tokens := .empty

def addUser (sha256 : List UInt8 → List UInt8) (store : RbacStore) (user : User) : RbacStore :=
  let user := { user with tokenHash := tokenLookupKey sha256 user.tokenHash }
  let tokens := match store.users user.username with
    | some existing => store.tokens.erase existing.tokenHash
    | none => store.tokens
  { users := store.users.insert user.username user
    tokens := tokens.insert user.tokenHash user.username }

def removeUser (store : RbacStore) (username : String) : RbacStore × Bool :=
  match store.users username with
  | some user =>
    ({ users := store.users.erase username, tokens := store.tokens.erase user.tokenHash }, true)
  | none => (store, false)

def authenticate (sha256 : List UInt8 → List UInt8) (store : RbacStore) (token : String) :
    Option User :=
  match store.tokens (tokenLookupKey sha256 token) with
  | none => none
  | some username =>
    match store.users username with
    | none => none
    | some user => if user.enabled then some user else none

/-- What `get_mut` does for the operations on one user. -/
def updateUser (store : RbacStore) (username : String) (f : User → User) : RbacStore × Bool :=
  match store.users username with
  | some _ => ({ store with users := store.users.modify username f }, true)
  | none => (store, false)

def updateRole (store : RbacStore) (username : String) (role : Role) : RbacStore × Bool :=
  store.updateUser username fun user => { user with role := role }

def disableUser (store : RbacStore) (username : String) : RbacStore × Bool :=
  store.updateUser username fun user => { user with enabled := false }

def enableUser (store : RbacStore) (username : String) : RbacStore × Bool :=
  store.updateUser username fun user => { user with enabled := true }

end RbacStore

/-! ## Who is authenticated -/

inductive Call where
  | addUser (user : User)
  | removeUser (username : String)
  | updateRole (username : String) (role : Role)
  | disableUser (username : String)
  | enableUser (username : String)

/-- The store, and the token last registered for each user that is stored. -/
structure Session where
  store : RbacStore
  registered : KeyMap String String

section

variable (sha256 : List UInt8 → List UInt8)

/-- The strings are the same, or one of them is the digest of the other. -/
def SameToken (s t : String) : Prop :=
  s = t ∨ (isDigest t = false ∧ s = hashToken sha256 t) ∨
    (isDigest s = false ∧ t = hashToken sha256 s)

namespace Session

def start : Session := ⟨.new, .empty⟩

def perform (s : Session) : Call → Session
  | .addUser user =>
    ⟨s.store.addUser sha256 user, s.registered.insert user.username user.tokenHash⟩
  | .removeUser username => ⟨(s.store.removeUser username).1, s.registered.erase username⟩
  | .updateRole username role => ⟨(s.store.updateRole username role).1, s.registered⟩
  | .disableUser username => ⟨(s.store.disableUser username).1, s.registered⟩
  | .enableUser username => ⟨(s.store.enableUser username).1, s.registered⟩

/-- A token that is registered is not one of another user. -/
def DistinctTokens (s : Session) (call : Call) : Prop :=
  ∀ user, call = .addUser user → ∀ other token, other ≠ user.username →
    s.registered other = some token → ¬ SameToken sha256 user.tokenHash token

/-- The two maps of the store and the registered tokens agree. -/
structure Consistent (s : Session) : Prop where
  named : ∀ name user, s.store.users name = some user → user.username = name
  digests : ∀ name, (s.store.users name).map User.tokenHash =
    (s.registered name).map (tokenLookupKey sha256)
  indexed : Indexes User.tokenHash s.store.users s.store.tokens

end Session

end

theorem isDigest_hashToken (sha256 : List UInt8 → List UInt8) (token : String) :
    isDigest (hashToken sha256 token) = true := by
  rw [isDigest, hashToken, String.toList_append]
  exact decide_eq_true (List.prefix_append ..)

theorem hashToken_injective {sha256 : List UInt8 → List UInt8} (hinj : Function.Injective sha256) :
    Function.Injective (hashToken sha256) := by
  intro s t h
  rw [hashToken, hashToken, String.append_right_inj] at h
  exact asBytes_injective (hinj (hexEncode_injective h))

/-- Two strings are looked up alike exactly if they stand for one token. -/
theorem tokenLookupKey_eq_iff {sha256 : List UInt8 → List UInt8}
    (hinj : Function.Injective sha256) (s t : String) :
    tokenLookupKey sha256 s = tokenLookupKey sha256 t ↔ SameToken sha256 s t := by
  have hnot : ∀ u v, isDigest u = false → u ≠ hashToken sha256 v := by
    rintro _ v hu rfl
    rw [isDigest_hashToken] at hu
    cases hu
  unfold tokenLookupKey SameToken
  cases hs : isDigest s <;> cases ht : isDigest t
  · rw [if_neg Bool.false_ne_true, if_neg Bool.false_ne_true, (hashToken_injective hinj).eq_iff]
    simp [hnot s t hs, hnot t s ht]
  · have hne : s ≠ t := by
      rintro rfl
      cases hs.symm.trans ht
    simp [hne, eq_comm]
  · have hne : s ≠ t := by
      rintro rfl
      cases hs.symm.trans ht
    simp [hne]
  · simp

variable {sha256 : List UInt8 → List UInt8}

namespace Session

variable {s : Session}

theorem Consistent.registered_of_stored (h : s.Consistent sha256) {name : String} {user : User}
    (hu : s.store.users name = some user) : ∃ token, s.registered name = some token ∧
      user.tokenHash = tokenLookupKey sha256 token := by
  have hdigest := h.digests name
  rw [hu, Option.map_some] at hdigest
  obtain ⟨token, htoken, heq⟩ := Option.map_eq_some_iff.mp hdigest.symm
  exact ⟨token, htoken, heq.symm⟩

theorem Consistent.addUser (hinj : Function.Injective sha256) (h : s.Consistent sha256)
    {user : User} (hdistinct : s.DistinctTokens sha256 (.addUser user)) :
    (s.perform sha256 (.addUser user)).Consistent sha256 := by
  let user' := { user with tokenHash := tokenLookupKey sha256 user.tokenHash }
  have hfresh : ∀ l b, l ≠ user.username → s.store.users l = some b →
      b.tokenHash ≠ user'.tokenHash := by
    intro l b hl hb hsame
    obtain ⟨token, htoken, hdigest⟩ := h.registered_of_stored hb
    have heq := (tokenLookupKey_eq_iff hinj _ _).mp (hsame.symm.trans hdigest)
    exact hdistinct user rfl l token hl htoken heq
  refine ⟨fun name u hu => ?_, fun name => ?_, ?_⟩
  · change s.store.users.insert user.username user' name = some u at hu
    by_cases hname : name = user.username
    · subst hname
      rw [KeyMap.insert_self] at hu
      cases hu
      rfl
    · rw [KeyMap.insert_of_ne _ hname] at hu
      exact h.named name u hu
  · change (s.store.users.insert user.username user' name).map _ =
      (s.registered.insert user.username user.tokenHash name).map _
    by_cases hname : name = user.username
    · subst hname
      rw [KeyMap.insert_self, KeyMap.insert_self]
      rfl
    · rw [KeyMap.insert_of_ne _ hname, KeyMap.insert_of_ne _ hname]
      exact h.digests name
  · cases hold : s.store.users user.username with
    | none =>
      have hnew := h.indexed.insert_new hold (a := user') fun l b hb =>
        hfresh l b (fun hl => by rw [hl, hold] at hb; cases hb) hb
      simpa only [perform, RbacStore.addUser, hold] using hnew
    | some existing =>
      have hnew := h.indexed.replace hold (a := user') hfresh
      simpa only [perform, RbacStore.addUser, hold] using hnew

theorem Consistent.removeUser (h : s.Consistent sha256) (username : String) :
    (s.perform sha256 (.removeUser username)).Consistent sha256 := by
  cases hold : s.store.users username with
  | none =>
    have hregistered : s.registered username = none := by
      have hdigest := h.digests username
      rw [hold] at hdigest
      exact Option.map_eq_none_iff.mp hdigest.symm
    have herase : s.registered.erase username = s.registered :=
      Function.update_eq_self_iff.mpr hregistered.symm
    simp only [perform, RbacStore.removeUser, hold, herase]
    exact h
  | some user =>
    refine ⟨fun name u hu => ?_, fun name => ?_, ?_⟩
    · simp only [perform, RbacStore.removeUser, hold] at hu
      by_cases hname : name = username
      · subst hname
        rw [KeyMap.erase_self] at hu
        cases hu
      · rw [KeyMap.erase_of_ne _ hname] at hu
        exact h.named name u hu
    · simp only [perform, RbacStore.removeUser, hold]
      by_cases hname : name = username
      · subst hname
        rw [KeyMap.erase_self, KeyMap.erase_self]
        rfl
      · rw [KeyMap.erase_of_ne _ hname, KeyMap.erase_of_ne _ hname]
        exact h.digests name
    · simpa only [perform, RbacStore.removeUser, hold] using h.indexed.erase hold

/-- An operation on one user that keeps its name and its token. -/
theorem Consistent.updateUser (h : s.Consistent sha256) (username : String) {f : User → User}
    (hname : ∀ u, (f u).username = u.username) (htoken : ∀ u, (f u).tokenHash = u.tokenHash) :
    Consistent sha256 ⟨(s.store.updateUser username f).1, s.registered⟩ := by
  cases hold : s.store.users username with
  | none =>
    simp only [RbacStore.updateUser, hold]
    exact h
  | some user =>
    simp only [RbacStore.updateUser, hold]
    refine ⟨fun name u hu => ?_, fun name => ?_, h.indexed.modify username htoken⟩
    · change s.store.users.modify username f name = some u at hu
      by_cases heq : name = username
      · subst heq
        rw [KeyMap.modify_self] at hu
        obtain ⟨old, hold', rfl⟩ := Option.map_eq_some_iff.mp hu
        exact (hname old).trans (h.named name old hold')
      · rw [KeyMap.modify_of_ne _ heq] at hu
        exact h.named name u hu
    · change (s.store.users.modify username f name).map _ = (s.registered name).map _
      rw [← h.digests name]
      by_cases heq : name = username
      · subst heq
        rw [KeyMap.modify_self, Option.map_map]
        exact congrArg (fun g => (s.store.users name).map g) (funext htoken)
      · rw [KeyMap.modify_of_ne _ heq]

theorem Consistent.perform (hinj : Function.Injective sha256) (h : s.Consistent sha256)
    (call : Call) (hdistinct : s.DistinctTokens sha256 call) :
    (s.perform sha256 call).Consistent sha256 := by
  cases call with
  | addUser user => exact h.addUser hinj hdistinct
  | removeUser username => exact h.removeUser username
  | updateRole username role => exact h.updateUser username (fun _ => rfl) fun _ => rfl
  | disableUser username => exact h.updateUser username (fun _ => rfl) fun _ => rfl
  | enableUser username => exact h.updateUser username (fun _ => rfl) fun _ => rfl

theorem consistent_start : Consistent sha256 start :=
  ⟨fun _ _ h => (nomatch h), fun _ => rfl, indexes_empty⟩

/-- A string authenticates an enabled user exactly if it is looked up under the user's digest. -/
theorem Consistent.authenticate_iff (h : s.Consistent sha256) (t : String) (user : User) :
    s.store.authenticate sha256 t = some user ↔ s.store.users user.username = some user ∧
      user.enabled = true ∧ user.tokenHash = tokenLookupKey sha256 t := by
  have hbind : s.store.authenticate sha256 t =
      ((s.store.tokens (tokenLookupKey sha256 t)).bind s.store.users).filter User.enabled := by
    unfold RbacStore.authenticate
    cases htoken : s.store.tokens (tokenLookupKey sha256 t) with
    | none => rfl
    | some name =>
      cases huser : s.store.users name with
      | none => simp [huser]
      | some u => simp [huser, Option.filter_some]
  rw [hbind, Option.filter_eq_some_iff, h.indexed.bind_eq_some]
  constructor
  · rintro ⟨⟨name, hu, hkey⟩, henabled⟩
    obtain rfl := h.named name user hu
    exact ⟨hu, henabled, hkey⟩
  · rintro ⟨hu, henabled, hkey⟩
    exact ⟨⟨user.username, hu, hkey⟩, henabled⟩

end Session

/-- After every sequence of calls in which no user is given a token of another one: a string
authenticates a user if and only if the user is stored and enabled and the string is the token last
registered for it, or one of the two is the digest of the other. -/
theorem authenticate_iff_sameToken (sha256 : List UInt8 → List UInt8)
    (hinj : Function.Injective sha256) (calls : List Call)
    (hdistinct : Along (Session.perform sha256) (Session.DistinctTokens sha256) .start calls)
    (t : String) (user : User) :
    let s := run (Session.perform sha256) .start calls
    s.store.authenticate sha256 t = some user ↔
      s.store.users user.username = some user ∧ user.enabled = true ∧
        ∃ token, s.registered user.username = some token ∧ SameToken sha256 t token := by
  intro s
  have h : s.Consistent sha256 := run_invariant
    (fun s call h hcall => h.perform hinj call hcall) Session.consistent_start hdistinct
  rw [h.authenticate_iff]
  refine and_congr_right fun hu => and_congr_right fun _ => ?_
  obtain ⟨token, htoken, hdigest⟩ := h.registered_of_stored hu
  rw [hdigest, eq_comm, tokenLookupKey_eq_iff hinj, htoken]
  simp

def admin (token : String) : User := ⟨"root", .admin, token, true, "t0", none⟩

def viewer : User := ⟨"guest", .viewer, "guest-token", true, "t1", none⟩

def renewal : List Call :=
  [.addUser (admin "old-token"), .addUser viewer, .addUser (admin "new-token")]

theorem authenticate_iff_sameToken_renewal :
    Function.Injective (id : List UInt8 → List UInt8) ∧
      Along (Session.perform id) (Session.DistinctTokens id) .start renewal ∧
      ((run (Session.perform id) .start renewal).store.authenticate id "old-token" ≠
        some { admin "new-token" with tokenHash := hashToken id "new-token" }) := by
  have hdistinct : Along (Session.perform id) (Session.DistinctTokens id) .start renewal := by
    refine ⟨?_, ?_, ?_, trivial⟩
    · intro user _ other token _ h
      cases h
    · rintro user ⟨⟩ other token _ h
      by_cases hother : other = "root"
      · subst hother
        obtain rfl : "old-token" = token := Option.some.inj h
        rw [← tokenLookupKey_eq_iff Function.injective_id]
        decide +kernel
      · change KeyMap.empty.insert "root" "old-token" other = some token at h
        rw [KeyMap.insert_of_ne _ hother] at h
        cases h
    · rintro user ⟨⟩ other token hne h
      change other ≠ "root" at hne
      by_cases hother : other = "guest"
      · subst hother
        obtain rfl : "guest-token" = token := Option.some.inj h
        rw [← tokenLookupKey_eq_iff Function.injective_id]
        decide +kernel
      · change (KeyMap.empty.insert "root" "old-token").insert "guest" "guest-token" other =
          some token at h
        rw [KeyMap.insert_of_ne _ hother, KeyMap.insert_of_ne _ hne] at h
        cases h
  refine ⟨Function.injective_id, hdistinct, fun hauth => ?_⟩
  obtain ⟨_, _, token, htoken, hsame⟩ :=
    (authenticate_iff_sameToken id Function.injective_id renewal
    hdistinct "old-token" _).mp hauth
  obtain rfl : "new-token" = token := Option.some.inj htoken
  rw [← tokenLookupKey_eq_iff Function.injective_id] at hsame
  exact absurd hsame (by decide +kernel)

/-- The digest under which a token is stored opens the account as the token does. -/
theorem digest_authenticates :
    Function.Injective (id : List UInt8 → List UInt8) ∧
      hashToken id "old-token" ≠ "old-token" ∧
      (run (Session.perform id) .start [.addUser (admin "old-token")]).registered "root" =
        some "old-token" ∧
      (run (Session.perform id) .start [.addUser (admin "old-token")]).store.authenticate id
        (hashToken id "old-token") = some (admin (hashToken id "old-token")) :=
  ⟨Function.injective_id, by decide +kernel, rfl, by decide +kernel⟩

end Wardex.Rbac
