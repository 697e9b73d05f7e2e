import Wardex.Audit.Chain
import Wardex.Enrollment.Registry
import Wardex.Lib.Run

/-! How long a deregistered agent stays deregistered: `refresh_staleness` passes over it, but a
heartbeat sets every agent online.  How often an enrollment token is accepted, over any number of
restarts: what a restart brings back of a token is its hash and the uses that are left. -/

namespace Wardex.Enrollment

open Wardex.Lib Wardex.Audit

section

variable {M : Type}

inductive AgentCall (M : Type) where
  | enroll (req : EnrollRequest) (idBytes tokenBytes : List UInt8) (now : Int)
  | heartbeat (id version : String) (health : Option AgentHealth) (now : Int)
  | deregister (id : String)
  | refreshStaleness (now : Int)
  | setMonitorScope (id : String) (scope : Option M)

namespace AgentRegistry

variable (sha256 : List UInt8 → List UInt8) (chrono : Chrono)

def perform (reg : AgentRegistry M) : AgentCall M → AgentRegistry M
  | .enroll req idBytes tokenBytes now => (reg.enroll sha256 chrono req idBytes tokenBytes now).1
  | .heartbeat id version health now => (reg.heartbeat sha256 chrono id version health now).1
  | .deregister id => (reg.deregister sha256 id).1
  | .refreshStaleness now => reg.refreshStaleness chrono now
  | .setMonitorScope id scope => (reg.setMonitorScope sha256 id scope).1

def status (reg : AgentRegistry M) (id : String) : Option AgentStatus :=
  (reg.agents.lookup id).map AgentIdentity.status

/-- The call neither is a heartbeat of the agent nor enrolls another agent under its id. -/
def Undisturbed (id : String) (reg : AgentRegistry M) : AgentCall M → Prop
  | .enroll req idBytes _ now =>
    (∃ t ∈ reg.tokens, accepts sha256 chrono req.enrollmentToken now t = true) →
      agentId idBytes ≠ id
  | .heartbeat agent _ _ _ => agent ≠ id
  | _ => True

variable {sha256 chrono} {reg : AgentRegistry M}

theorem status_updateAgent_self (reg : AgentRegistry M) (id : String)
    (f : AgentIdentity M → AgentIdentity M) : (reg.updateAgent sha256 id f).1.status id =
      (reg.agents.lookup id).map fun a => (f a).status := by
  cases hagent : reg.agents.lookup id with
  | none => simp only [updateAgent, status, hagent, Option.map_none]
  | some a =>
    simp only [updateAgent, hagent, status, save]
    rw [lookup_updateFirst_self, hagent]
    rfl

theorem status_updateAgent_other (reg : AgentRegistry M) {id other : String} (h : other ≠ id)
    (f : AgentIdentity M → AgentIdentity M) :
    (reg.updateAgent sha256 id f).1.status other = reg.status other := by
  cases hagent : reg.agents.lookup id with
  | none => simp only [updateAgent, hagent]
  | some a =>
    simp only [updateAgent, hagent, status, save]
    rw [lookup_updateFirst_other h]

theorem status_enroll (req : EnrollRequest) (idBytes tokenBytes : List UInt8) (now : Int)
    (id : String) : (reg.enroll sha256 chrono req idBytes tokenBytes now).1.status id =
      if (∃ t ∈ reg.tokens, accepts sha256 chrono req.enrollmentToken now t = true) ∧
        agentId idBytes = id then some .online else reg.status id := by
  cases hfind : reg.tokens.find? (accepts sha256 chrono req.enrollmentToken now) with
  | none =>
    have hnone : ¬ ∃ t ∈ reg.tokens, accepts sha256 chrono req.enrollmentToken now t = true := by
      rintro ⟨t, ht, haccepts⟩
      exact List.find?_eq_none.mp hfind t ht haccepts
    simp only [enroll, hfind]
    rw [if_neg fun h => hnone h.1]
  | some t =>
    have hsome : ∃ t ∈ reg.tokens, accepts sha256 chrono req.enrollmentToken now t = true :=
      ⟨t, List.mem_of_find?_eq_some hfind, List.find?_some hfind⟩
    simp only [enroll, hfind, status, save]
    by_cases hid : agentId idBytes = id
    · rw [if_pos ⟨hsome, hid⟩, ← hid, lookup_insertKey_self]
      rfl
    · rw [if_neg fun h => hid h.2, lookup_insertKey_other (Ne.symm hid)]

theorem status_refreshStaleness {id : String} (h : reg.status id = some .deregistered) (now : Int) :
    (reg.refreshStaleness chrono now).status id = some .deregistered := by
  obtain ⟨a, hagent, hstatus⟩ := Option.map_eq_some_iff.mp h
  simp only [refreshStaleness, status]
  rw [lookup_map_value, hagent, Option.map_some, Option.map_some, refreshAgent, if_pos hstatus,
    hstatus]

/-- One call leaves a deregistered agent deregistered exactly if it is undisturbed. -/
theorem status_perform_iff {id : String} (h : reg.status id = some .deregistered)
    (call : AgentCall M) : (reg.perform sha256 chrono call).status id = some .deregistered ↔
      Undisturbed sha256 chrono id reg call := by
  obtain ⟨a, hagent, hstatus⟩ := Option.map_eq_some_iff.mp h
  cases call with
  | enroll req idBytes tokenBytes now =>
    change (reg.enroll sha256 chrono req idBytes tokenBytes now).1.status id = _ ↔ (_ → _)
    rw [status_enroll]
    split_ifs with henrolled
    · exact ⟨fun heq => (nomatch heq), fun hne => absurd henrolled.2 (hne henrolled.1)⟩
    · exact ⟨fun _ haccepts hid => henrolled ⟨haccepts, hid⟩, fun _ => h⟩
  | heartbeat agent version health now =>
    change (reg.updateAgent sha256 agent _).1.status id = _ ↔ agent ≠ id
    by_cases hid : agent = id
    · subst hid
      rw [status_updateAgent_self, hagent]
      exact ⟨fun heq => (nomatch heq), fun hne => absurd rfl hne⟩
    · rw [status_updateAgent_other reg (Ne.symm hid)]
      exact ⟨fun _ => hid, fun _ => h⟩
  | deregister agent =>
    refine iff_of_true ?_ trivial
    change (reg.updateAgent sha256 agent _).1.status id = _
    by_cases hid : id = agent
    · subst hid
      rw [status_updateAgent_self, hagent]
      rfl
    · rw [status_updateAgent_other reg hid, h]
  | refreshStaleness now => exact iff_of_true (status_refreshStaleness h now) trivial
  | setMonitorScope agent scope =>
    refine iff_of_true ?_ trivial
    change (reg.updateAgent sha256 agent _).1.status id = _
    by_cases hid : id = agent
    · subst hid
      rw [status_updateAgent_self, hagent]
      exact congrArg some hstatus
    · rw [status_updateAgent_other reg hid, h]

theorem status_deregister {id : String} (h : (reg.deregister sha256 id).2 = .ok ()) :
    (reg.deregister sha256 id).1.status id = some .deregistered := by
  refine (status_updateAgent_self reg id _).trans ?_
  cases hagent : reg.agents.lookup id with
  | none =>
    simp only [deregister, updateAgent, hagent] at h
    cases h
  | some a => rfl

/-- From every registry and over every later sequence of calls: an agent that was deregistered
stays so in every state if and only if each call leaves it undisturbed. -/
theorem deregistered_forever_iff (sha256 : List UInt8 → List UInt8) (chrono : Chrono)
    (reg : AgentRegistry M) (id : String) (h : (reg.deregister sha256 id).2 = .ok ())
    (calls : List (AgentCall M)) :
    Throughout (perform sha256 chrono) (fun reg => reg.status id = some .deregistered)
        (reg.deregister sha256 id).1 calls ↔
      Along (perform sha256 chrono) (Undisturbed sha256 chrono id)
        (reg.deregister sha256 id).1 calls :=
  throughout_iff_along (fun _ call hreg hcall => (status_perform_iff hreg call).mpr hcall)
    (fun _ hreg => hreg) (fun _ call hreg hnext => (status_perform_iff hreg call).mp hnext)
    (status_deregister h)

/-- A registry with one token and one agent, which enrolled with it. -/
def oneAgent : AgentRegistry Unit :=
  let empty : AgentRegistry Unit := new id ⟨[], [], none⟩
  let tokens := (EnrollmentToken.new id firstHour 5 [0xab] 0).toList
  (enroll id firstHour { empty with tokens := tokens } ⟨"ab", "host", "linux", "1.0", none⟩ [7] [1]
    0).1

theorem deregistered_forever_iff_oneAgent :
    (oneAgent.deregister id "agent-07").2.isOk = true ∧
      Throughout (perform id firstHour) (fun reg => reg.status "agent-07" = some .deregistered)
        (oneAgent.deregister id "agent-07").1 [.refreshStaleness 0, .deregister "agent-07"] :=
  ⟨by decide +kernel, (deregistered_forever_iff id firstHour oneAgent "agent-07" rfl _).mpr
    ⟨trivial, trivial, trivial⟩⟩

/-- The removed agent's next heartbeat sets it online. -/
theorem heartbeat_revives :
    (oneAgent.deregister id "agent-07").2.isOk = true ∧
      (oneAgent.deregister id "agent-07").1.status "agent-07" = some .deregistered ∧
      ((oneAgent.deregister id "agent-07").1.heartbeat id firstHour "agent-07" "1.0" none
        0).1.status "agent-07" = some .online := by
  decide +kernel

end AgentRegistry

end

/-! ## Uses of a token -/

variable {M : Type}

inductive TokenCall where
  | createToken (maxUses : Nat) (bytes : List UInt8) (now : Int)
  | createTokenWithTtl (maxUses ttlSecs : Nat) (bytes : List UInt8) (now : Int)
  | enroll (req : EnrollRequest) (idBytes tokenBytes : List UInt8) (now : Int)
  | restart

/-- The registry, the tokens issued with their numbers of uses, and the strings accepted so far. -/
structure Session (M : Type) where
  registry : AgentRegistry M
  issued : List (String × Nat)
  accepted : List String

section

variable (sha256 : List UInt8 → List UInt8) (chrono : Chrono)

namespace Session

def start : Session M := ⟨.new sha256 ⟨[], [], none⟩, [], []⟩

/-- A call that panics leaves everything as it is. -/
def issue (s : Session M) : Option (AgentRegistry M × EnrollmentToken) → Session M
  | some (registry, token) =>
    ⟨registry, s.issued ++ [(token.token, token.maxUses)], s.accepted⟩
  | none => s

def perform (s : Session M) : TokenCall → Session M
  | .createToken maxUses bytes now =>
    s.issue (s.registry.createToken sha256 chrono maxUses bytes now)
  | .createTokenWithTtl maxUses ttlSecs bytes now =>
    s.issue (s.registry.createTokenWithTtl sha256 chrono maxUses ttlSecs bytes now)
  | .enroll req idBytes tokenBytes now =>
    match s.registry.enroll sha256 chrono req idBytes tokenBytes now with
    | (registry, .ok _) => ⟨registry, s.issued, s.accepted ++ [req.enrollmentToken]⟩
    | (registry, .error _) => ⟨registry, s.issued, s.accepted⟩
  | .restart => ⟨.new sha256 (s.registry.save sha256).storage, s.issued, s.accepted⟩

end Session

/-- The token stands for an issued one: every use that is gone was an acceptance. -/
def Stands (accepted : List String) (t : EnrollmentToken) (issued : String × Nat) : Prop :=
  t.tokenHash = enrollmentTokenHash sha256 issued.1 ∧
    t.usesRemaining + accepted.count issued.1 = issued.2

structure Session.Tracked (s : Session M) : Prop where
  stands : List.Forall₂ (Stands sha256 s.accepted) s.registry.tokens s.issued
  noLegacy : s.registry.storage.legacy = none
  known : ∀ token ∈ s.accepted, token ∈ s.issued.map Prod.fst

end

variable {sha256 : List UInt8 → List UInt8} {chrono : Chrono}

/-! ## Hashes -/

theorem ctEq_iff {a b : String} : ctEq a b = true ↔ a = b := by
  rw [ctEq, ctEqBytes_iff, asBytes_injective.eq_iff]

theorem enrollmentTokenHash_injective (hinj : Function.Injective sha256) :
    Function.Injective (enrollmentTokenHash sha256) := by
  intro s t h
  have hbytes := asBytes_injective (hinj (hexEncode_injective h))
  rwa [String.append_right_inj] at hbytes

theorem enrollmentTokenHash_ne_empty (hdigest : ∀ data, sha256 data ≠ []) (token : String) :
    enrollmentTokenHash sha256 token ≠ "" := by
  intro h
  exact hdigest _ (hexEncode_injective (h.trans (show "" = hexEncode [] from rfl)))

variable {accepted : List String} {t : EnrollmentToken} {issued : String × Nat}

theorem Stands.matches_iff (hinj : Function.Injective sha256) (hdigest : ∀ data, sha256 data ≠ [])
    (h : Stands sha256 accepted t issued) (presented : String) :
    t.matchesPresented sha256 presented = true ↔ presented = issued.1 := by
  have hhash : t.tokenHash ≠ "" := h.1 ▸ enrollmentTokenHash_ne_empty hdigest issued.1
  rw [EnrollmentToken.matchesPresented, if_neg hhash, ctEq_iff, h.1,
    (enrollmentTokenHash_injective hinj).eq_iff, eq_comm]

theorem EnrollmentToken.usesRemaining_pos {now : Int} (h : t.isValid chrono now = true) :
    0 < t.usesRemaining := by
  by_contra hzero
  rw [EnrollmentToken.isValid, if_pos (by omega)] at h
  cases h

/-! ## One call -/

theorem stands_other {presented : String} {tokens : List EnrollmentToken}
    {issued : List (String × Nat)} (h : List.Forall₂ (Stands sha256 accepted) tokens issued)
    (hnot : presented ∉ issued.map Prod.fst) :
    List.Forall₂ (Stands sha256 (accepted ++ [presented])) tokens issued := by
  induction h with
  | nil => exact .nil
  | @cons t p tokens issued hp hrest ih =>
    rw [List.map_cons, List.mem_cons, not_or] at hnot
    refine .cons ⟨hp.1, ?_⟩ (ih hnot.2)
    rw [List.count_append, List.count_singleton, if_neg (by simpa using hnot.1), Nat.add_zero]
    exact hp.2

/-- Among different tokens the first that is accepted is the one that was presented. -/
theorem stands_enroll (hinj : Function.Injective sha256) (hdigest : ∀ data, sha256 data ≠ [])
    {presented : String} {now : Int} {tokens : List EnrollmentToken}
    {issued : List (String × Nat)} (h : List.Forall₂ (Stands sha256 accepted) tokens issued)
    (hdistinct : (issued.map Prod.fst).Nodup)
    (hfind : tokens.find? (AgentRegistry.accepts sha256 chrono presented now) ≠ none) :
    presented ∈ issued.map Prod.fst ∧
      List.Forall₂ (Stands sha256 (accepted ++ [presented]))
        (updateFirst (AgentRegistry.accepts sha256 chrono presented now) (fun t => t.consume.1)
          tokens) issued := by
  induction h with
  | nil => exact absurd rfl hfind
  | @cons t p tokens issued hp hrest ih =>
    obtain ⟨hfresh, hdistinct⟩ := List.nodup_cons.mp hdistinct
    rw [updateFirst]
    split_ifs with haccepts
    · obtain ⟨hmatches, hvalid⟩ := (Bool.and_eq_true _ _).mp haccepts
      have hraw := (hp.matches_iff hinj hdigest presented).mp hmatches
      have hpos := t.usesRemaining_pos hvalid
      subst hraw
      refine ⟨List.mem_cons_self, .cons ?_ (stands_other hrest hfresh)⟩
      rw [EnrollmentToken.consume, if_pos hpos]
      refine ⟨hp.1, ?_⟩
      rw [List.count_append, List.count_singleton_self, ← hp.2]
      dsimp only
      omega
    · rw [List.find?_cons_of_neg haccepts] at hfind
      obtain ⟨hmem, hstands⟩ := ih hdistinct hfind
      refine ⟨List.mem_cons_of_mem _ hmem, .cons ⟨hp.1, ?_⟩ hstands⟩
      have hne : presented ≠ p.1 := fun heq => hfresh (heq ▸ hmem)
      rw [List.count_append, List.count_singleton, if_neg (by simpa using hne), Nat.add_zero]
      exact hp.2

theorem Stands.reload (hdigest : ∀ data, sha256 data ≠ []) (h : Stands sha256 accepted t issued) :
    Stands sha256 accepted ((t.forStorage sha256).normalizeLoadedToken sha256) issued := by
  have hhash : t.tokenHash ≠ "" := h.1 ▸ enrollmentTokenHash_ne_empty hdigest issued.1
  have hkeep : t.normalizeLoadedToken sha256 = t := if_neg fun hempty => hhash hempty.1
  have hstored : t.forStorage sha256 = { t with token := "" } := by
    rw [EnrollmentToken.forStorage, hkeep]
  rw [hstored, EnrollmentToken.normalizeLoadedToken, if_neg fun hempty => hhash hempty.1]
  exact h

/-- Without an older store, a new process has the tokens that were saved. -/
theorem tokens_new {storage : Storage M} (h : storage.legacy = none) :
    (AgentRegistry.new sha256 storage).tokens =
        storage.enrollmentTokens.map (EnrollmentToken.normalizeLoadedToken sha256) ∧
      (AgentRegistry.new sha256 storage).storage = storage := by
  simp only [AgentRegistry.new, AgentRegistry.load, h]
  split_ifs with hempty
  · exact ⟨rfl, rfl⟩
  · exact ⟨(not_not.mp fun hne => hempty (Or.inr hne)).symm, rfl⟩

/-- A failed enrollment changes nothing. -/
theorem enroll_failed {reg : AgentRegistry M} {req : EnrollRequest}
    {idBytes tokenBytes : List UInt8} {now : Int} {e : String}
    (h : (reg.enroll sha256 chrono req idBytes tokenBytes now).2 = .error e) :
    (reg.enroll sha256 chrono req idBytes tokenBytes now).1 = reg := by
  unfold AgentRegistry.enroll at h ⊢
  split
  · rfl
  · next hfind =>
    rw [hfind] at h
    cases h

theorem EnrollmentToken.new_hash {maxUses : Nat} {bytes : List UInt8} {now : Int}
    (h : EnrollmentToken.new sha256 chrono maxUses bytes now = some t) :
    t.tokenHash = enrollmentTokenHash sha256 t.token ∧ t.usesRemaining = t.maxUses := by
  obtain ⟨expires, _, heq⟩ := Option.bind_eq_some_iff.mp h
  cases heq
  exact ⟨rfl, rfl⟩

theorem EnrollmentToken.newWithTtl_hash {maxUses ttlSecs : Nat} {bytes : List UInt8} {now : Int}
    (h : EnrollmentToken.newWithTtl sha256 chrono maxUses ttlSecs bytes now = some t) :
    t.tokenHash = enrollmentTokenHash sha256 t.token ∧ t.usesRemaining = t.maxUses := by
  obtain ⟨t', ht', hrest⟩ := Option.bind_eq_some_iff.mp h
  obtain ⟨expires, _, heq⟩ := Option.bind_eq_some_iff.mp hrest
  cases heq
  obtain ⟨hhash, huses⟩ := EnrollmentToken.new_hash ht'
  exact ⟨hhash, huses⟩

namespace Session

variable {s : Session M}

theorem tracked_start : (start sha256 : Session M).Tracked sha256 :=
  ⟨.nil, rfl, fun _ h => (nomatch h)⟩

/-- The issued tokens only grow. -/
theorem issued_isPrefix (s : Session M) (call : TokenCall) :
    s.issued <+: (s.perform sha256 chrono call).issued := by
  have hissue : ∀ result, s.issued <+: (s.issue result).issued := by
    intro result
    cases result with
    | none => exact List.prefix_rfl
    | some p => exact List.prefix_append ..
  cases call with
  | createToken maxUses bytes now => exact hissue _
  | createTokenWithTtl maxUses ttlSecs bytes now => exact hissue _
  | enroll =>
    simp only [perform]
    split <;> exact List.prefix_rfl
  | restart => exact List.prefix_rfl

theorem Tracked.issue (h : s.Tracked sha256) {made : Option EnrollmentToken}
    (hmade : ∀ t, made = some t →
      t.tokenHash = enrollmentTokenHash sha256 t.token ∧ t.usesRemaining = t.maxUses)
    (hdistinct : ((s.issue (made.map (s.registry.addToken sha256))).issued.map Prod.fst).Nodup) :
    (s.issue (made.map (s.registry.addToken sha256))).Tracked sha256 := by
  cases made with
  | none => exact h
  | some t =>
    obtain ⟨hhash, huses⟩ := hmade t rfl
    have hfresh : t.token ∉ s.issued.map Prod.fst := by
      rw [show (s.issue ((some t).map (s.registry.addToken sha256))).issued =
        s.issued ++ [(t.token, t.maxUses)] from rfl, List.map_append] at hdistinct
      exact fun hmem => List.disjoint_of_nodup_append hdistinct hmem List.mem_cons_self
    -- the token is new, so it has not been accepted
    have hcount : s.accepted.count t.token = 0 :=
      List.count_eq_zero.mpr fun hmem => hfresh (h.known _ hmem)
    refine ⟨List.rel_append h.stands (.cons ⟨hhash, ?_⟩ .nil), h.noLegacy, fun token hmem => ?_⟩
    · change t.usesRemaining + s.accepted.count t.token = t.maxUses
      rw [hcount, huses]
      rfl
    · change token ∈ (s.issued ++ [_]).map Prod.fst
      rw [List.map_append]
      exact List.mem_append_left _ (h.known token hmem)

theorem Tracked.enroll (hinj : Function.Injective sha256) (hdigest : ∀ data, sha256 data ≠ [])
    (h : s.Tracked sha256) (hdistinct : (s.issued.map Prod.fst).Nodup) (req : EnrollRequest)
    (idBytes tokenBytes : List UInt8) (now : Int) :
    (s.perform sha256 chrono (.enroll req idBytes tokenBytes now)).Tracked sha256 := by
  cases hfind : s.registry.tokens.find?
    (AgentRegistry.accepts sha256 chrono req.enrollmentToken now) with
  | none =>
    simp only [perform, AgentRegistry.enroll, hfind]
    exact h
  | some t =>
    obtain ⟨hmem, hstands⟩ := stands_enroll hinj hdigest h.stands hdistinct
      (fun hnone => by rw [hfind] at hnone; cases hnone)
    simp only [perform, AgentRegistry.enroll, hfind]
    refine ⟨hstands, h.noLegacy, fun token htoken => ?_⟩
    rcases List.mem_append.mp htoken with hold | hnew
    · exact h.known token hold
    · rw [List.mem_singleton.mp hnew]
      exact hmem

theorem Tracked.restart (chrono : Chrono) (hdigest : ∀ data, sha256 data ≠ [])
    (h : s.Tracked sha256) :
    (s.perform sha256 chrono .restart).Tracked sha256 := by
  obtain ⟨htokens, hstorage⟩ := @tokens_new M sha256 (s.registry.save sha256).storage h.noLegacy
  refine ⟨?_, ?_, h.known⟩
  · change List.Forall₂ _ (AgentRegistry.new sha256 (s.registry.save sha256).storage).tokens
      s.issued
    rw [htokens]
    change List.Forall₂ _ ((s.registry.tokens.map _).map _) _
    rw [List.map_map, List.forall₂_map_left_iff]
    exact h.stands.imp fun _ _ ht => ht.reload hdigest
  · change (AgentRegistry.new sha256 (s.registry.save sha256).storage).storage.legacy = none
    rw [hstorage]
    exact h.noLegacy

theorem tracked_run (hinj : Function.Injective sha256) (hdigest : ∀ data, sha256 data ≠ [])
    (calls : List TokenCall)
    (hdistinct : ((run (perform sha256 chrono) (start sha256 : Session M) calls).issued.map
      Prod.fst).Nodup) :
    (run (perform sha256 chrono) (start sha256 : Session M) calls).Tracked sha256 := by
  induction calls using List.reverseRecOn with
  | nil => exact tracked_start
  | append_singleton calls call ih =>
    rw [run_append] at hdistinct ⊢
    have hbefore := hdistinct.sublist ((issued_isPrefix _ call).map Prod.fst).sublist
    have h := ih hbefore
    cases call with
    | createToken maxUses bytes now =>
      exact h.issue (fun t ht => EnrollmentToken.new_hash ht) hdistinct
    | createTokenWithTtl maxUses ttlSecs bytes now =>
      exact h.issue (fun t ht => EnrollmentToken.newWithTtl_hash ht) hdistinct
    | enroll req idBytes tokenBytes now => exact h.enroll hinj hdigest hbefore req _ _ _
    | restart => exact h.restart chrono hdigest

end Session

/-- Over every sequence of calls and restarts that issues different tokens: no token is accepted
more often than its number of uses, and nothing else is accepted; and an enrollment that fails
leaves the registry as it was. -/
theorem uses_bounded (sha256 : List UInt8 → List UInt8) (chrono : Chrono)
    (hinj : Function.Injective sha256) (hdigest : ∀ data, sha256 data ≠ []) (calls : List TokenCall)
    (hdistinct : ((run (Session.perform sha256 chrono) (Session.start sha256 : Session M)
      calls).issued.map Prod.fst).Nodup) :
    let s := run (Session.perform sha256 chrono) (Session.start sha256 : Session M) calls
    (∀ token maxUses, (token, maxUses) ∈ s.issued → s.accepted.count token ≤ maxUses) ∧
      (∀ token ∈ s.accepted, token ∈ s.issued.map Prod.fst) ∧
      ∀ req idBytes tokenBytes now e,
        (s.registry.enroll sha256 chrono req idBytes tokenBytes now).2 = .error e →
          (s.registry.enroll sha256 chrono req idBytes tokenBytes now).1 = s.registry := by
  intro s
  have h := Session.tracked_run hinj hdigest calls hdistinct
  refine ⟨fun token maxUses hissued => ?_, h.known, fun _ _ _ _ _ hfailed => enroll_failed hfailed⟩
  obtain ⟨i, hi, heq⟩ := List.getElem_of_mem hissued
  have hstands := h.stands.get (h.stands.length_eq ▸ hi) hi
  rw [List.get_eq_getElem, List.get_eq_getElem, heq] at hstands
  have huses : _ + s.accepted.count token = maxUses := hstands.2
  omega

def agentRequest (token : String) : EnrollRequest := ⟨token, "host", "linux", "1.0", none⟩

/-- The only use is gone, also for the next process. -/
def onceAndRestart : List TokenCall :=
  [.createToken 1 [0xab] 0, .enroll (agentRequest "ab") [7] [1] 0, .restart,
    .enroll (agentRequest "ab") [8] [2] 0]

theorem uses_bounded_onceAndRestart :
    let s : Session Unit :=
      run (Session.perform (List.cons 0) firstHour) (Session.start (List.cons 0)) onceAndRestart
    s.accepted = ["ab"] ∧ s.accepted.count "ab" ≤ 1 := by
  refine ⟨by decide +kernel, ?_⟩
  have hissued : (run (Session.perform (List.cons 0) firstHour)
      (Session.start (List.cons 0) : Session Unit) onceAndRestart).issued = [("ab", 1)] := by
    decide +kernel
  refine (uses_bounded (List.cons 0) firstHour List.cons_injective (fun _ => List.cons_ne_nil _ _)
    onceAndRestart ?_).1 "ab" 1 ?_
  · rw [hissued]
    decide
  · rw [hissued]
    exact List.mem_cons_self

end Wardex.Enrollment
