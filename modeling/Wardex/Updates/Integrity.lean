import Wardex.Lib.Delimited
import Wardex.Updates.Release

/-! When every listed release is served with its own bytes.  The binary is written before the
release is signed, under a name that other releases can have. -/

namespace Wardex.Updates

open Wardex.Lib Wardex.Audit Wardex.Enrollment

structure Upload where
  version : String
  platform : String
  binary : List UInt8
  releaseNotes : String
  mandatory : Bool
  now : Int

inductive PublishCall where
  | publishRelease (u : Upload)
  | publishSignedRelease (u : Upload) (signingKey : List UInt8) (signedNow : Int)

namespace PublishCall

def upload : PublishCall → Upload
  | publishRelease u => u
  | publishSignedRelease u _ _ => u

def signingKey : PublishCall → Option (List UInt8)
  | publishRelease _ => none
  | publishSignedRelease _ key _ => some key

def signedNow : PublishCall → Int
  | publishRelease u => u.now
  | publishSignedRelease _ _ now => now

def fileName (c : PublishCall) : String := releaseFileName c.upload.version c.upload.platform

end PublishCall

namespace UpdateManager

variable {Key : Type} (crypto : Crypto Key) (chrono : Chrono) (write : String → Except String Unit)

def publish (m : UpdateManager) : PublishCall → UpdateManager × Except String Release
  | .publishRelease u => m.publishRelease crypto chrono write u.version u.platform u.binary
      u.releaseNotes u.mandatory u.now
  | .publishSignedRelease u key signedNow => m.publishSignedRelease crypto chrono write u.version
      u.platform u.binary u.releaseNotes u.mandatory key u.now signedNow

def afterPublish (m : UpdateManager) (c : PublishCall) : UpdateManager :=
  (m.publish crypto chrono write c).1

/-! ## What the store promises -/

/-- The release is served with the bytes it describes. -/
def Serves (m : UpdateManager) (r : Release) : Prop :=
  ∃ bytes, m.getReleaseBinary r.fileName = .ok bytes ∧
    sha256Hex crypto.sha256 bytes = r.sha256 ∧ bytes.length = r.fileSize

structure Intact (m : UpdateManager) : Prop where
  served : ∀ r ∈ m.listReleases, m.Serves crypto r
  ascending : m.counters.Pairwise (· < ·)

/-- A call that fails leaves the binaries and the list as they were. -/
def FailsCleanly (m : UpdateManager) (c : PublishCall) : Prop :=
  ∀ e, (m.publish crypto chrono write c).2 = .error e →
    (m.publish crypto chrono write c).1.disk.files = m.disk.files ∧
      (m.publish crypto chrono write c).1.listReleases = m.listReleases

/-! ## What it costs -/

/-- The call gets as far as writing its binary. -/
def Writes (c : PublishCall) : Prop :=
  ¬ (traverses c.upload.version ∨ traverses c.upload.platform) ∧ write c.fileName = .ok ()

/-- The call has no key, or one of 32 bytes. -/
def Signable (m : UpdateManager) (c : PublishCall) : Prop :=
  ∀ key ∈ c.signingKey, key.length = 32 ∧ ∃ bytes, crypto.toVec ((unsigned crypto chrono
    c.upload.version c.upload.platform c.upload.binary c.upload.releaseNotes c.upload.mandatory
    c.upload.now).signaturePayload crypto (chrono.format c.signedNow) m.nextUpdateCounter) =
      .ok bytes

/-- A call that writes keeps what other releases of the name describe; if it then fails, the very
bytes were there before; if it signs, the counter does not wrap. -/
structure Clear (m : UpdateManager) (c : PublishCall) : Prop where
  unsignable : ¬ m.Signable crypto chrono c → m.disk.files c.fileName = some c.upload.binary
  overwritten : m.Signable crypto chrono c → ∀ r ∈ m.releases, r.fileName = c.fileName →
    sha256Hex crypto.sha256 c.upload.binary = r.sha256 ∧ c.upload.binary.length = r.fileSize
  counted : m.Signable crypto chrono c → c.signingKey ≠ none → ∀ k ∈ m.counters, k + 1 < 2 ^ 64

def ClearIfWritten (m : UpdateManager) (c : PublishCall) : Prop :=
  Writes write c → m.Clear crypto chrono c

/-! ## The names -/

theorem traverses_eq_false {name : String} : traverses name = false ↔
    ¬ ['.', '.'] <:+: name.toList ∧ '/' ∉ name.toList ∧ '\\' ∉ name.toList := by
  rw [traverses, decide_eq_false_iff_not, not_or, not_or]

/-- A name put together from two admissible parts is admissible. -/
theorem traverses_releaseFileName {version platform : String}
    (h : ¬ (traverses version ∨ traverses platform)) :
    traverses (releaseFileName version platform) = false := by
  rw [not_or, Bool.not_eq_true, Bool.not_eq_true, traverses_eq_false, traverses_eq_false] at h
  obtain ⟨⟨hdots, hslash, hback⟩, hdots', hslash', hback'⟩ := h
  have hname : (releaseFileName version platform).toList =
      "wardex".toList ++ '-' :: (version.toList ++ '-' :: platform.toList) := by
    simp [releaseFileName]
  rw [traverses_eq_false, hname]
  refine ⟨fun hinfix => ?_, ?_, ?_⟩
  · obtain hfirst | hrest := infix_of_not_mem (by decide) hinfix
    · exact absurd hfirst (by decide)
    · exact (infix_of_not_mem (by decide) hrest).elim hdots hdots'
  · simp [hslash, hslash']
  · simp [hback, hback']

/-! ## What a call does -/

variable {crypto chrono write} {m : UpdateManager} {c : PublishCall}

/-- The release a call puts together before it signs it. -/
def draft (crypto : Crypto Key) (chrono : Chrono) (c : PublishCall) : Release :=
  unsigned crypto chrono c.upload.version c.upload.platform c.upload.binary c.upload.releaseNotes
    c.upload.mandatory c.upload.now

/-- The manager with the binary of the call written. -/
def written (m : UpdateManager) (c : PublishCall) : UpdateManager :=
  { m with disk := { m.disk with files := m.disk.files.insert c.fileName c.upload.binary } }

theorem publish_eq_inner (m : UpdateManager) (c : PublishCall) : m.publish crypto chrono write c =
    m.publishReleaseInner crypto chrono write c.upload.version c.upload.platform c.upload.binary
      c.upload.releaseNotes c.upload.mandatory c.signingKey c.upload.now c.signedNow := by
  cases c <;> rfl

theorem publish_of_not_writes (h : ¬ Writes write c) :
    ∃ e, m.publish crypto chrono write c = (m, .error e) := by
  rw [publish_eq_inner, publishReleaseInner]
  split_ifs with hname
  · exact ⟨_, rfl⟩
  · cases hwrite : write c.fileName with
    | error e =>
      refine ⟨"failed to write release binary: " ++ e, ?_⟩
      dsimp only [unsigned]
      rw [show write (releaseFileName c.upload.version c.upload.platform) = _ from hwrite]
    | ok u => exact absurd ⟨hname, hwrite⟩ h

/-- A written binary is followed by the signing, which settles the outcome. -/
theorem publish_of_writes (h : Writes write c) {signed : Except String Release}
    (hsign : sign crypto chrono m.nextUpdateCounter
      (draft crypto chrono c) c.signingKey c.signedNow =
      signed) : m.publish crypto chrono write c =
        (signed.toOption.elim (m.written c) fun r =>
          save { m.written c with releases := m.releases ++ [r] }, signed) := by
  rw [publish_eq_inner, publishReleaseInner, if_neg h.1]
  dsimp only
  rw [show write (unsigned crypto chrono _ _ _ _ _ _).fileName = _ from h.2]
  have hsigned : ∀ counter r, counter = m.nextUpdateCounter → r = draft crypto chrono c →
      sign crypto chrono counter r c.signingKey c.signedNow = signed := by
    rintro _ _ rfl rfl
    exact hsign
  dsimp only
  rw [hsigned]
  · cases signed <;> rfl
  · rfl
  · rfl

theorem exists_sign : (∃ r, sign crypto chrono m.nextUpdateCounter (draft crypto chrono c)
    c.signingKey c.signedNow = .ok r) ↔ m.Signable crypto chrono c := by
  unfold Signable
  cases c.signingKey with
  | none => exact iff_of_true ⟨_, rfl⟩ nofun
  | some key =>
    refine Release.exists_attachSignature.trans ⟨fun h k hk => Option.some.inj hk ▸ h, ?_⟩
    exact fun h => h key rfl

/-- What is signed keeps the name, hash and size of the draft. -/
theorem sign_eq_ok {r : Release} (h : sign crypto chrono m.nextUpdateCounter
    (draft crypto chrono c) c.signingKey c.signedNow = .ok r) : r.fileName = c.fileName ∧
      r.sha256 = sha256Hex crypto.sha256 c.upload.binary ∧ r.fileSize = c.upload.binary.length ∧
        r.updateCounter = c.signingKey.map fun _ => m.nextUpdateCounter := by
  cases hkey : c.signingKey with
  | none =>
    rw [hkey] at h
    obtain rfl := Except.ok.inj h
    exact ⟨rfl, rfl, rfl, rfl⟩
  | some key =>
    rw [hkey] at h
    exact Release.attachSignature_eq_ok h

/-- A call fails before it writes, fails after it has written, or lists a new release. -/
theorem publish_cases (crypto : Crypto Key) (chrono : Chrono) (write : String → Except String Unit)
    (m : UpdateManager) (c : PublishCall) :
    (¬ Writes write c ∧ ∃ e, m.publish crypto chrono write c = (m, .error e)) ∨
    (Writes write c ∧ ¬ m.Signable crypto chrono c ∧
      ∃ e, m.publish crypto chrono write c = (m.written c, .error e)) ∨
    (Writes write c ∧ m.Signable crypto chrono c ∧ ∃ r,
      m.publish crypto chrono write c =
        (save { m.written c with releases := m.releases ++ [r] }, .ok r) ∧
      r.fileName = c.fileName ∧ r.sha256 = sha256Hex crypto.sha256 c.upload.binary ∧
        r.fileSize = c.upload.binary.length ∧
          r.updateCounter = c.signingKey.map fun _ => m.nextUpdateCounter) := by
  by_cases hw : Writes write c
  · cases hsign : sign crypto chrono m.nextUpdateCounter (draft crypto chrono c) c.signingKey
      c.signedNow with
    | error e =>
      refine .inr (.inl ⟨hw, fun hs => ?_, e, publish_of_writes hw hsign⟩)
      obtain ⟨r, hr⟩ := exists_sign.mpr hs
      exact nomatch hsign.symm.trans hr
    | ok r =>
      exact .inr (.inr ⟨hw, exists_sign.mp ⟨r, hsign⟩, r, publish_of_writes hw hsign,
        sign_eq_ok hsign⟩)
  · exact .inl ⟨hw, publish_of_not_writes hw⟩

/-! ## The invariant -/

theorem serves_iff {r : Release} : m.Serves crypto r ↔ traverses r.fileName = false ∧
    ∃ bytes, m.disk.files r.fileName = some bytes ∧ sha256Hex crypto.sha256 bytes = r.sha256 ∧
      bytes.length = r.fileSize := by
  unfold Serves getReleaseBinary
  cases htraverses : traverses r.fileName with
  | true => exact iff_of_false (fun ⟨_, h, _⟩ => nomatch h) fun h => nomatch h.1
  | false => simp

/-- With `Intact`: the counters are 64-bit numbers. -/
structure Inv (crypto : Crypto Key) (m : UpdateManager) : Prop where
  intact : m.Intact crypto
  bounded : ∀ k ∈ m.counters, k < 2 ^ 64

theorem inv_new (crypto : Crypto Key) : new.Inv crypto where
  intact := ⟨List.forall_mem_nil _, List.Pairwise.nil⟩
  bounded := List.forall_mem_nil _

/-- A counter that does not wrap is above all the others. -/
theorem lt_nextUpdateCounter (h : ∀ k ∈ m.counters, k + 1 < 2 ^ 64) :
    m.nextUpdateCounter < 2 ^ 64 ∧ ∀ k ∈ m.counters, k < m.nextUpdateCounter := by
  unfold nextUpdateCounter
  refine ⟨Nat.mod_lt _ (by decide), ?_⟩
  cases hmax : m.counters.max? with
  | none =>
    rw [List.max?_eq_none_iff.mp hmax]
    exact List.forall_mem_nil _
  | some top =>
    obtain ⟨htop, hle⟩ := List.max?_eq_some_iff.mp hmax
    intro k hk
    rw [Option.getD_some, Nat.mod_eq_of_lt (h top htop)]
    exact Nat.lt_succ_of_le (hle k hk)

/-- A counter that wraps is no larger than any. -/
theorem nextUpdateCounter_eq_zero (hbounded : ∀ k ∈ m.counters, k < 2 ^ 64) {k : Nat}
    (hk : k ∈ m.counters) (hwrap : 2 ^ 64 ≤ k + 1) : m.nextUpdateCounter = 0 := by
  have hsome : m.counters.max? = some k := by
    refine List.max?_eq_some_iff.mpr ⟨hk, fun l hl => ?_⟩
    have := hbounded l hl
    omega
  have heq : k + 1 = 2 ^ 64 := le_antisymm (hbounded k hk) hwrap
  rw [nextUpdateCounter, hsome, Option.getD_some, heq, Nat.mod_self]

theorem written_eq_self (h : m.disk.files c.fileName = some c.upload.binary) :
    m.written c = m := by
  have hfiles : m.disk.files.insert c.fileName c.upload.binary = m.disk.files := by
    funext name
    by_cases hname : name = c.fileName
    · rw [hname, KeyMap.insert_self, h]
    · rw [KeyMap.insert_of_ne _ hname]
  rw [written, hfiles]

/-- After a call that lists its release, an older release is served as before unless the call
wrote under its name. -/
theorem serves_published {r r' : Release} (hr : m.Serves crypto r')
    (hsame : r'.fileName = c.fileName → sha256Hex crypto.sha256 c.upload.binary = r'.sha256 ∧
      c.upload.binary.length = r'.fileSize) :
    (save { m.written c with releases := m.releases ++ [r] }).Serves crypto r' := by
  obtain ⟨hname, bytes, hbytes, hsha, hlength⟩ := serves_iff.mp hr
  refine serves_iff.mpr ⟨hname, ?_⟩
  show ∃ bytes, (m.disk.files.insert c.fileName c.upload.binary) r'.fileName = some bytes ∧ _ ∧ _
  by_cases hfile : r'.fileName = c.fileName
  · rw [hfile, KeyMap.insert_self]
    exact ⟨_, rfl, hsame hfile⟩
  · rw [KeyMap.insert_of_ne _ hfile]
    exact ⟨bytes, hbytes, hsha, hlength⟩

theorem counters_published (r : Release) :
    (save { m.written c with releases := m.releases ++ [r] }).counters =
      m.counters ++ r.updateCounter.toList := by
  show (m.releases ++ [r]).filterMap Release.updateCounter = _
  rw [List.filterMap_append, List.filterMap_cons, List.filterMap_nil]
  cases r.updateCounter <;> rfl

theorem inv_afterPublish (h : m.Inv crypto) (hclear : m.ClearIfWritten crypto chrono write c) :
    (m.afterPublish crypto chrono write c).Inv crypto := by
  unfold afterPublish
  obtain ⟨-, e, hnext⟩ | ⟨hw, hs, e, hnext⟩ | ⟨hw, hs, r, hnext, hname, hsha, hsize, hcounter⟩ :=
    publish_cases crypto chrono write m c
  · rwa [hnext]
  · rwa [hnext, written_eq_self ((hclear hw).unsignable hs)]
  -- the new counter, if there is one, is above the others
  have hnew : ∀ k ∈ r.updateCounter.toList, k < 2 ^ 64 ∧ ∀ l ∈ m.counters, l < k := by
    intro k hk
    rw [hcounter, Option.mem_toList] at hk
    obtain ⟨key, hkey, rfl⟩ := Option.map_eq_some_iff.mp hk
    exact lt_nextUpdateCounter ((hclear hw).counted hs (by simp [hkey]))
  rw [hnext]
  constructor
  case intact =>
    constructor
    case served =>
      refine List.forall_mem_append.mpr ⟨fun r' hr' => ?_, List.forall_mem_singleton.mpr ?_⟩
      · exact serves_published (h.intact.served r' hr') ((hclear hw).overwritten hs r' hr')
      · refine serves_iff.mpr ⟨hname ▸ traverses_releaseFileName hw.1, c.upload.binary, ?_,
          hsha.symm, hsize.symm⟩
        rw [hname]
        exact KeyMap.insert_self ..
    case ascending =>
      rw [counters_published]
      refine List.pairwise_append.mpr ⟨h.intact.ascending, ?_, fun l hl k hk => (hnew k hk).2 l hl⟩
      cases r.updateCounter <;> simp
  case bounded =>
    rw [counters_published]
    exact List.forall_mem_append.mpr ⟨h.bounded, fun k hk => (hnew k hk).1⟩

theorem failsCleanly_of_clear (hclear : m.ClearIfWritten crypto chrono write c) :
    m.FailsCleanly crypto chrono write c := by
  intro e he
  obtain ⟨-, e', hnext⟩ | ⟨hw, hs, e', hnext⟩ | ⟨-, -, r, hnext, -⟩ :=
    publish_cases crypto chrono write m c
  · rw [hnext]
    exact ⟨rfl, rfl⟩
  · rw [hnext, written_eq_self ((hclear hw).unsignable hs)]
    exact ⟨rfl, rfl⟩
  · rw [hnext] at he
    exact nomatch he

theorem clear_of_intact (h : m.Inv crypto)
    (hintact : (m.afterPublish crypto chrono write c).Intact crypto)
    (hclean : m.FailsCleanly crypto chrono write c) : m.ClearIfWritten crypto chrono write c := by
  intro hw
  unfold afterPublish at hintact
  obtain ⟨hnot, -⟩ | ⟨-, hs, e, hnext⟩ | ⟨-, hs, r, hnext, hname, hsha, hsize, hcounter⟩ :=
    publish_cases crypto chrono write m c
  · exact absurd hw hnot
  · refine ⟨fun _ => ?_, fun hs' => absurd hs' hs, fun hs' => absurd hs' hs⟩
    have hfiles := (hclean e (by rw [hnext])).1
    rw [hnext] at hfiles
    rw [← hfiles]
    exact KeyMap.insert_self ..
  rw [hnext] at hintact
  refine ⟨fun hs' => absurd hs hs', fun _ r' hr' hfile => ?_, fun _ hkey k hk => ?_⟩
  · -- the older release of the name is now served with the new binary
    obtain ⟨-, bytes, hbytes, hsha', hlength⟩ :=
      serves_iff.mp (hintact.served r' (List.mem_append_left _ hr'))
    have hbinary : bytes = c.upload.binary := by
      rw [hfile] at hbytes
      exact (Option.some.inj ((KeyMap.insert_self ..).symm.trans hbytes)).symm
    exact hbinary ▸ ⟨hsha', hlength⟩
  · by_contra hwrap
    have hzero := nextUpdateCounter_eq_zero h.bounded hk (not_lt.mp hwrap)
    obtain ⟨key, hsigning⟩ := Option.ne_none_iff_exists'.mp hkey
    have hascending := hintact.ascending
    rw [counters_published, hcounter, hsigning, Option.map_some, hzero] at hascending
    exact absurd ((List.pairwise_append.mp hascending).2.2 k hk 0 (List.mem_singleton_self 0))
      (Nat.not_lt_zero k)

/-- Over every sequence of publish calls on an empty store: every listed release stays served
with its own bytes, the counters ascend and failing calls change nothing if and only if each call
that writes keeps to the three conditions of `Clear`. -/
theorem store_intact_iff (crypto : Crypto Key) (chrono : Chrono)
    (write : String → Except String Unit) (cs : List PublishCall) :
    Throughout (afterPublish crypto chrono write) (Intact crypto) new cs ∧
        Along (afterPublish crypto chrono write) (FailsCleanly crypto chrono write) new cs ↔
      Along (afterPublish crypto chrono write) (ClearIfWritten crypto chrono write) new cs :=
  throughout_and_along_iff (fun _ _ => inv_afterPublish) (fun _ h => h.intact)
    (fun _ _ _ => failsCleanly_of_clear) (fun _ _ => clear_of_intact) (inv_new crypto)

/-- `wardex-1-2-3` is version 1-2 for platform 3 and version 1 for platform 2-3. -/
def collidingUploads : List PublishCall :=
  [.publishRelease ⟨"1-2", "3", [1], "", false, 0⟩, .publishRelease ⟨"1", "2-3", [2], "", false, 0⟩]

/-- The second release overwrites the binary of the first. -/
theorem collision_overwrites : ¬ Throughout (afterPublish identityHash firstHour fun _ => .ok ())
    (Intact identityHash) new collidingUploads := by
  intro h
  obtain ⟨-, -, hlast⟩ := h
  have hlisted : unsigned identityHash firstHour "1-2" "3" [1] "" false 0 ∈
      (run (afterPublish identityHash firstHour fun _ => .ok ()) new collidingUploads).releases :=
    List.mem_cons_self
  obtain ⟨bytes, hbytes, hsha, -⟩ := hlast.served _ hlisted
  have hserved : (run (afterPublish identityHash firstHour fun _ => .ok ()) new
      collidingUploads).getReleaseBinary "wardex-1-2-3" = .ok [2] := by
    decide +kernel
  obtain rfl : [2] = bytes := Except.ok.inj (hserved.symm.trans hbytes)
  revert hsha
  decide +kernel

end UpdateManager

end Wardex.Updates
