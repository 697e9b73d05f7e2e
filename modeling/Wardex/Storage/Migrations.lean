import Wardex.Lib.Schema
import Wardex.Storage.AuditTable

/-! The migrations of the storage: what an open runs and a rollback undoes, each statement on its
own and not in a transaction; that an open after any run of opens, crashes during an open, rollbacks
and writes completes the whole schema, and what a rollback in such a run leaves. -/

namespace Wardex.Storage

open Wardex.Lib Wardex.Lib.Schema

section

structure Migration where
  version : ℕ
  name : String
  sqlUp : List Statement
  sqlDown : List Statement
deriving DecidableEq

def initialSchema : Migration where
  version := 1
  name := "initial_schema"
  sqlUp := [
    .createTable "alerts" ["id", "timestamp", "device_id", "score", "level", "reasons",
      "acknowledged", "assigned_to", "case_id", "tenant_id", "created_at"],
    .createIndex "idx_alerts_device" "alerts" "device_id",
    .createIndex "idx_alerts_level" "alerts" "level",
    .createIndex "idx_alerts_tenant" "alerts" "tenant_id",
    .createIndex "idx_alerts_timestamp" "alerts" "timestamp",
    .createTable "cases" ["id", "title", "status", "priority", "assignee", "alert_ids", "notes",
      "tenant_id", "created_at", "updated_at"],
    .createIndex "idx_cases_status" "cases" "status",
    .createIndex "idx_cases_tenant" "cases" "tenant_id",
    .createTable "audit_log" ["id", "timestamp", "actor", "action", "target", "detail", "digest",
      "prev_digest", "tenant_id"],
    .createIndex "idx_audit_actor" "audit_log" "actor",
    .createIndex "idx_audit_tenant" "audit_log" "tenant_id",
    .createTable "fleet_state" ["agent_id", "hostname", "platform", "version", "last_heartbeat",
      "status", "policy_version", "tags", "tenant_id"],
    .createIndex "idx_fleet_tenant" "fleet_state" "tenant_id",
    .createTable "config_store" ["key", "value", "updated_at"],
    .createTable "schema_version" ["version", "name", "applied_at"]]
  sqlDown := [
    .dropTable "alerts",
    .dropTable "cases",
    .dropTable "audit_log",
    .dropTable "fleet_state",
    .dropTable "config_store",
    .dropTable "schema_version"]

def addThreatIntel : Migration where
  version := 2
  name := "add_threat_intel"
  sqlUp := [
    .createTable "threat_indicators" ["id", "ioc_type", "value", "source", "confidence",
      "first_seen", "last_seen", "tenant_id"],
    .createIndex "idx_indicators_type" "threat_indicators" "ioc_type",
    .createIndex "idx_indicators_value" "threat_indicators" "value",
    .createTable "response_actions" ["id", "request_id", "action_type", "target", "status",
      "approved_by", "executed_at", "result", "tenant_id", "created_at"],
    .createIndex "idx_response_status" "response_actions" "status"]
  sqlDown := [
    .dropTable "threat_indicators",
    .dropTable "response_actions"]

def addRetentionAndMetrics : Migration where
  version := 3
  name := "add_retention_and_metrics"
  sqlUp := [
    .createTable "metrics" ["id", "timestamp", "metric_name", "value", "labels", "tenant_id"],
    .createIndex "idx_metrics_name" "metrics" "metric_name",
    .createIndex "idx_metrics_time" "metrics" "timestamp",
    .createTable "retention_policy" ["table_name", "retention_days", "last_purge"],
    .insertOrIgnore "retention_policy" (.text "alerts") [.integer 90, .null],
    .insertOrIgnore "retention_policy" (.text "audit_log") [.integer 365, .null],
    .insertOrIgnore "retention_policy" (.text "metrics") [.integer 30, .null],
    .insertOrIgnore "retention_policy" (.text "response_actions") [.integer 180, .null]]
  sqlDown := [
    .dropTable "metrics",
    .dropTable "retention_policy"]

def migrations : List Migration := [initialSchema, addThreatIntel, addRetentionAndMetrics]

structure StorageBackend where
  conn : Database
  currentVersion : ℕ

/-- `MAX(version)`, and 0 where the table or its rows are missing. -/
def loadCurrentVersion (db : Database) : ℕ :=
  match db.tables "schema_version" with
  | none => 0
  | some table => (table.keys.filterMap SqlValue.integer?).foldr max 0

def Migration.record (m : Migration) (now : String) : Statement :=
  .insertOrReplace "schema_version" (.integer m.version) [.text m.name, .text now]

variable (describe : SqlError → String)

def runMigrations (now : String) :
    List Migration → StorageBackend → StorageBackend × Except StorageError Unit
  | [], backend => (backend, .ok ())
  | m :: ms, backend =>
    if backend.currentVersion < m.version then
      match executeBatch m.sqlUp backend.conn with
      | (conn, some e) => ({ backend with conn }, .error ⟨.migrationFailed,
          "migration v" ++ toString m.version ++ " '" ++ m.name ++ "' failed: " ++ describe e⟩)
      | (conn, none) =>
        match (m.record now).execute conn with
        | .error e => ({ backend with conn }, .error ⟨.migrationFailed,
            "failed to record migration v" ++ toString m.version ++ ": " ++ describe e⟩)
        | .ok conn => runMigrations now ms ⟨conn, m.version⟩
    else runMigrations now ms backend

/-- `StorageBackend::open` on the database of the directory. -/
def openStorage (now : String) (db : Database) : StorageBackend × Except StorageError Unit :=
  runMigrations describe now migrations ⟨db, loadCurrentVersion db⟩

def rollbackMigration (backend : StorageBackend) :
    StorageBackend × Except StorageError (Option ℕ) :=
  if backend.currentVersion = 0 then (backend, .ok none)
  else match migrations.find? (·.version = backend.currentVersion) with
  | none => (backend, .error ⟨.migrationFailed,
      "no migration found for version " ++ toString backend.currentVersion⟩)
  | some m =>
    match executeBatch m.sqlDown backend.conn with
    | (conn, some e) => ({ backend with conn }, .error ⟨.migrationFailed,
        "rollback v" ++ toString m.version ++ " '" ++ m.name ++ "' failed: " ++ describe e⟩)
    | (conn, none) =>
      match (Statement.deleteKey "schema_version" (.integer m.version)).execute conn with
      | .error e => ({ backend with conn }, .error ⟨.migrationFailed,
          "failed to remove migration record v" ++ toString m.version ++ ": " ++ describe e⟩)
      | .ok conn => (⟨conn, m.version - 1⟩, .ok (some m.version))

/-- The statements of an open of a database of the version. -/
def pendingStatements (now : String) : List Migration → ℕ → List Statement
  | [], _ => []
  | m :: ms, version =>
    if version < m.version then
      m.sqlUp ++ m.record now :: pendingStatements now ms m.version
    else pendingStatements now ms version

/-- The statements of the other calls: they change rows, and not those of the tables that the
migrations write to. -/
def Writes : Statement → Prop
  | .insertOrIgnore table .. | .insertOrReplace table .. | .deleteKey table _ =>
    table ≠ "schema_version" ∧ table ≠ "retention_policy"
  | .createTable .. | .createIndex .. | .dropTable _ => False

/-- The database, and the version that the open session has in memory. -/
structure StorageHost where
  conn : Database
  session : Option ℕ

inductive StorageAction where
  | opened (now : String)
  /-- The process ends after so many statements of an open. -/
  | crashed (now : String) (statements : ℕ)
  | rolledBack
  | wrote (statement : Statement) (h : Writes statement)

def StorageHost.step (host : StorageHost) : StorageAction → StorageHost
  | .opened now =>
    match openStorage describe now host.conn with
    | (backend, .ok ()) => ⟨backend.conn, some backend.currentVersion⟩
    | (backend, .error _) => ⟨backend.conn, none⟩
  | .crashed now statements =>
    let pending := pendingStatements now migrations (loadCurrentVersion host.conn)
    ⟨(executeBatch (pending.take statements) host.conn).1, none⟩
  | .rolledBack =>
    match host.session with
    | none => host
    | some version =>
      let backend := (rollbackMigration describe ⟨host.conn, version⟩).1
      ⟨backend.conn, some backend.currentVersion⟩
  | .wrote statement _ =>
    match statement.execute host.conn with
    | .error _ => host
    | .ok conn => { host with conn }

/-- A database before its first open. -/
def StorageHost.new : StorageHost := ⟨⟨.empty, .empty⟩, none⟩

end

section

/-! ## The migrations -/

def upStatements : List Statement := migrations.flatMap Migration.sqlUp

/-- The tables that a rollback of the migration drops. -/
def Migration.dropped (m : Migration) : List String :=
  m.sqlDown.filterMap fun
    | .dropTable name => some name
    | _ => none

theorem ordered_sqlUp : ∀ m ∈ migrations, Ordered upStatements [] m.sqlUp := by decide

theorem sqlDown_eq : ∀ m ∈ migrations, m.sqlDown = m.dropped.map .dropTable := by decide

theorem version_mem : ∀ m ∈ migrations, 1 ≤ m.version ∧ m.version ≤ 3 := by decide

theorem pairwise_version : migrations.Pairwise (·.version < ·.version) := by decide

theorem version_injective :
    ∀ m ∈ migrations, ∀ m' ∈ migrations, m.version = m'.version → m = m' := by decide

/-- No migration is about a table of a later one. -/
theorem table_notMem_dropped : ∀ m ∈ migrations, ∀ m' ∈ migrations, m'.version < m.version →
    ∀ s ∈ m'.sqlUp, s.table ∉ m.dropped := by decide

theorem schemaVersion_mem : Statement.createTable "schema_version" ["version", "name", "applied_at"]
    ∈ initialSchema.sqlUp := by decide

theorem mem_seededTables {name : String} :
    name ∈ seededTables upStatements ↔ name = "retention_policy" := by
  have h : seededTables upStatements = List.replicate 4 "retention_policy" := rfl
  rw [h, List.mem_replicate]
  exact and_iff_right (by decide)

variable {db db' : Database} {m : Migration} {ms : List Migration} {s : Statement} {now : String}
  {table : SqlTable} {n : ℕ}

theorem exists_ready (hm : m ∈ migrations) (hs : s ∈ m.sqlUp) : ∃ done, s.Ready upStatements done :=
  (ordered_sqlUp m hm).ready hs

theorem foldr_max_le_iff {l : List ℕ} : l.foldr max 0 ≤ n ↔ ∀ k ∈ l, k ≤ n := by
  induction l with
  | nil => simp
  | cons k l ih => rw [List.foldr_cons, Nat.max_le, ih, List.forall_mem_cons]

theorem foldr_max_integer_le_iff {keys : List SqlValue} :
    (keys.filterMap SqlValue.integer?).foldr max 0 ≤ n ↔
      ∀ k, SqlValue.integer k ∈ keys → k ≤ n := by
  rw [foldr_max_le_iff]
  constructor
  · exact fun h k hk => h k (List.mem_filterMap.mpr ⟨_, hk, rfl⟩)
  · intro h k hk
    obtain ⟨key, hkey, hk⟩ := List.mem_filterMap.mp hk
    cases key with
    | integer k' =>
      obtain rfl := Option.some.inj hk
      exact h k' hkey
    | text _ | null => cases hk

theorem loadCurrentVersion_eq (db : Database) : loadCurrentVersion db =
    ((db.keysOf "schema_version").filterMap SqlValue.integer?).foldr max 0 := by
  rw [loadCurrentVersion]
  cases htable : db.tables "schema_version" with
  | none =>
    rw [Database.keysOf_of_none htable]
    rfl
  | some table => rw [Database.keysOf_of_some htable]

theorem loadCurrentVersion_congr
    (h : ∀ name ∉ seededTables upStatements, db'.keysOf name = db.keysOf name) :
    loadCurrentVersion db' = loadCurrentVersion db := by
  rw [loadCurrentVersion_eq, loadCurrentVersion_eq, h _ (mt mem_seededTables.mp (by decide))]

theorem loadCurrentVersion_put : loadCurrentVersion (db.put "schema_version" table) =
    (table.keys.filterMap SqlValue.integer?).foldr max 0 := by
  rw [loadCurrentVersion_eq, Database.keysOf_put_self]

theorem loadCurrentVersion_le_iff :
    loadCurrentVersion db ≤ n ↔ ∀ k, SqlValue.integer k ∈ db.keysOf "schema_version" → k ≤ n := by
  rw [loadCurrentVersion_eq, foldr_max_integer_le_iff]

/-- What a migration up to the recorded version is for is all in the database. -/
structure Sound (db : Database) : Prop extends Consistent upStatements db where
  version_le : loadCurrentVersion db ≤ 3
  holds : ∀ m ∈ migrations, m.version ≤ loadCurrentVersion db → ∀ s ∈ m.sqlUp, s.Holds db

theorem Sound.extends (h : Sound db) (hcons : Consistent upStatements db')
    (hext : Extends upStatements db db')
    (hversion : loadCurrentVersion db' ≤ loadCurrentVersion db) : Sound db' where
  toConsistent := hcons
  version_le := hversion.trans h.version_le
  holds m hm hle s hs := by
    obtain ⟨_, hready⟩ := exists_ready hm hs
    exact hready.holds_extends (h.holds m hm (hle.trans hversion) s hs) hext

theorem sound_new : Sound StorageHost.new.conn where
  columns := by rintro _ _ ⟨⟩
  indexes := by rintro _ _ ⟨⟩
  version_le := Nat.zero_le 3
  holds m hm hle := by
    have hpos := (version_mem m hm).1
    have hzero : loadCurrentVersion StorageHost.new.conn = 0 := rfl
    omega

/-- A record of a migration changes the recorded version and nothing else. -/
theorem execute_record (m : Migration) (now : String) (h : Consistent upStatements db)
    (htable : db.tables "schema_version" = some table) :
    ∃ db', (m.record now).execute db = .ok db' ∧ Consistent upStatements db' ∧
      Extends upStatements db db' ∧
      loadCurrentVersion db' = max m.version (loadCurrentVersion db) := by
  refine ⟨_, db.changeRows_eq htable _, h.put (h.columns _ table htable), .put fun t ht => ?_, ?_⟩
  · obtain rfl := Option.some.inj (htable.symm.trans ht)
    exact ⟨rfl, fun hname => absurd hname (by decide)⟩
  · refine eq_of_forall_ge_iff fun n => ?_
    rw [loadCurrentVersion_put, foldr_max_integer_le_iff, Nat.max_le, loadCurrentVersion_le_iff,
      Database.keysOf_of_some htable]
    simp only [SqlTable.keys, mem_keys_replaceRow]
    constructor
    · exact fun hkeys => ⟨hkeys _ (.inl rfl), fun k hk => hkeys k (.inr hk)⟩
    · rintro ⟨hm, hkeys⟩ k (hk | hk)
      · obtain rfl := SqlValue.integer.inj hk
        exact hm
      · exact hkeys k hk

/-! ## An open -/

theorem of_cons_suffix (hms : m :: ms <:+ migrations) :
    m ∈ migrations ∧ ms <:+ migrations ∧ ∀ m' ∈ ms, m.version < m'.version := by
  refine ⟨hms.subset List.mem_cons_self, (List.suffix_cons m ms).trans hms, ?_⟩
  exact fun _ => List.rel_of_pairwise_cons (pairwise_version.sublist hms.sublist)

/-- A migration whose predecessors are all recorded. -/
theorem Sound.migrate (h : Sound db) (now : String) (hm : m ∈ migrations)
    (hversion : loadCurrentVersion db < m.version)
    (hbefore : ∀ m' ∈ migrations, m'.version < m.version → m'.version ≤ loadCurrentVersion db) :
    ∃ db₁ db₂, executeBatch m.sqlUp db = (db₁, none) ∧ (m.record now).execute db₁ = .ok db₂ ∧
      Sound db₂ ∧ loadCurrentVersion db₂ = m.version := by
  obtain ⟨db₁, hbatch, hcons, hholds, hext, hkeys⟩ :=
    h.executeBatch_ordered (ordered_sqlUp m hm) (by simp) (by simp)
  have hup : ∀ m' ∈ migrations, m'.version ≤ m.version → ∀ s ∈ m'.sqlUp, s.Holds db₁ := by
    intro m' hm' hle s hs
    rcases Nat.lt_or_eq_of_le hle with hlt | heq
    · obtain ⟨_, hready⟩ := exists_ready hm' hs
      exact hready.holds_extends (h.holds m' hm' (hbefore m' hm' hlt) s hs) hext
    · obtain rfl := version_injective m' hm' m hm heq
      exact hholds s hs
  obtain ⟨table, htable, -⟩ :=
    hup initialSchema (by decide) (version_mem m hm).1 _ schemaVersion_mem
  obtain ⟨db₂, hexec, hcons₂, hext₂, hversion₂⟩ := execute_record m now hcons htable
  rw [loadCurrentVersion_congr hkeys, max_eq_left hversion.le] at hversion₂
  refine ⟨db₁, db₂, hbatch, hexec, ⟨hcons₂, ?_, fun m' hm' hle s hs => ?_⟩, hversion₂⟩
  · exact hversion₂ ▸ (version_mem m hm).2
  · obtain ⟨_, hready⟩ := exists_ready hm' hs
    exact hready.holds_extends (hup m' hm' (hversion₂ ▸ hle) s hs) hext₂

/-- An open that is cut after `k` of its statements. -/
theorem Sound.take_pending (h : Sound db) (now : String) (k : ℕ) (hms : ms <:+ migrations)
    (hrest : ∀ m ∈ migrations, m ∈ ms ∨ m.version ≤ loadCurrentVersion db) :
    ∃ db', executeBatch ((pendingStatements now ms (loadCurrentVersion db)).take k) db =
        (db', none) ∧ Sound db' ∧
      ((pendingStatements now ms (loadCurrentVersion db)).length ≤ k →
        loadCurrentVersion db' =
          ms.foldl (fun version m => max m.version version) (loadCurrentVersion db)) := by
  induction ms generalizing db k with
  | nil => exact ⟨db, by rw [pendingStatements, List.take_nil, executeBatch], h, fun _ => rfl⟩
  | cons m ms ih =>
    obtain ⟨hm, hms', hlt⟩ := of_cons_suffix hms
    have hcases : ∀ m' ∈ migrations, m' = m ∨ m' ∈ ms ∨ m'.version ≤ loadCurrentVersion db := by
      intro m' hm'
      rcases hrest m' hm' with hmem | hle
      · exact (List.mem_cons.mp hmem).imp_right .inl
      · exact .inr (.inr hle)
    by_cases hversion : loadCurrentVersion db < m.version
    · rw [pendingStatements, if_pos hversion, List.foldl_cons]
      rcases Nat.lt_or_ge m.sqlUp.length k with hk | hk
      · -- the migration is done and recorded
        have hbefore : ∀ m' ∈ migrations, m'.version < m.version →
            m'.version ≤ loadCurrentVersion db := by
          intro m' hm' hless
          rcases hcases m' hm' with rfl | hmem | hle
          · exact absurd hless (Nat.lt_irrefl _)
          · exact absurd (hlt m' hmem) (Nat.lt_asymm hless)
          · exact hle
        obtain ⟨db₁, db₂, hbatch, hexec, hsound, hversion₂⟩ := h.migrate now hm hversion hbefore
        have hrest₂ : ∀ m' ∈ migrations, m' ∈ ms ∨ m'.version ≤ loadCurrentVersion db₂ := by
          intro m' hm'
          rcases hcases m' hm' with rfl | hmem | hle
          · exact .inr hversion₂.ge
          · exact .inl hmem
          · exact .inr (hle.trans (hversion₂ ▸ hversion.le))
        obtain ⟨db₃, hbatch₃, hsound₃, hversion₃⟩ :=
          ih hsound (k - m.sqlUp.length - 1) hms' hrest₂
        rw [hversion₂] at hbatch₃ hversion₃
        refine ⟨db₃, ?_, hsound₃, fun hlen => ?_⟩
        · rw [List.take_append, List.take_of_length_le hk.le, executeBatch_append, hbatch,
            Option.elim_none]
          obtain ⟨j, hj⟩ : ∃ j, k - m.sqlUp.length = j + 1 := ⟨k - m.sqlUp.length - 1, by omega⟩
          rw [hj] at hbatch₃ ⊢
          rw [List.take_succ_cons, executeBatch, hexec]
          exact hbatch₃
        · rw [max_eq_left hversion.le]
          refine hversion₃ ?_
          rw [List.length_append, List.length_cons] at hlen
          omega
      · -- the migration is cut before its record
        obtain ⟨db₁, hbatch, hcons, -, hext, hkeys⟩ :=
          h.executeBatch_ordered ((ordered_sqlUp m hm).take k) (by simp) (by simp)
        refine ⟨db₁, ?_, h.extends hcons hext (loadCurrentVersion_congr hkeys).le, fun hlen => ?_⟩
        · rwa [List.take_append_of_le_length hk]
        · rw [List.length_append, List.length_cons] at hlen
          omega
    · have hle := Nat.not_lt.mp hversion
      rw [pendingStatements, if_neg hversion, List.foldl_cons, max_eq_right hle]
      refine ih h k hms' fun m' hm' => ?_
      rcases hcases m' hm' with rfl | hmem | hle'
      · exact .inr hle
      · exact .inl hmem
      · exact .inr hle'

section describe

variable (describe : SqlError → String)

/-- Where none of its statements fails, an open executes them and knows the last version. -/
theorem runMigrations_eq {version : ℕ}
    (h : executeBatch (pendingStatements now ms version) db = (db', none)) :
    runMigrations describe now ms ⟨db, version⟩ =
      (⟨db', ms.foldl (fun version m => max m.version version) version⟩, .ok ()) := by
  induction ms generalizing db version with
  | nil =>
    obtain rfl : db = db' := congrArg Prod.fst h
    rfl
  | cons m ms ih =>
    rw [pendingStatements] at h
    rw [runMigrations, List.foldl_cons]
    split_ifs at h ⊢ with hversion
    · rw [max_eq_left hversion.le]
      cases hbatch : executeBatch m.sqlUp db with
      | mk db₁ e =>
        cases e with
        | some e =>
          rw [executeBatch_append, hbatch] at h
          cases h
        | none =>
          rw [executeBatch_append, hbatch, Option.elim_none, executeBatch] at h
          cases hexec : (m.record now).execute db₁ with
          | error e =>
            rw [hexec] at h
            cases h
          | ok db₂ =>
            rw [hexec] at h
            simp only [hexec]
            exact ih h
    · rw [max_eq_right (Nat.not_lt.mp hversion)]
      exact ih h

theorem keepsRows_sqlUp (hm : m ∈ migrations) (hs : s ∈ m.sqlUp) :
    s.KeepsRows ["schema_version"] := by
  obtain ⟨done, hready⟩ := exists_ready hm hs
  cases s with
  | createTable | createIndex | insertOrIgnore => exact trivial
  | insertOrReplace | deleteKey | dropTable => exact hready.elim

theorem keepsRows_record (m : Migration) (now : String) :
    (m.record now).KeepsRows ["schema_version"] := List.mem_singleton_self _

theorem rowsKept_runMigrations (hms : ms ⊆ migrations) (backend : StorageBackend) :
    RowsKept ["schema_version"] backend.conn (runMigrations describe now ms backend).1.conn := by
  induction ms generalizing backend with
  | nil => exact .refl backend.conn
  | cons m ms ih =>
    obtain ⟨hm, hms⟩ := List.cons_subset.mp hms
    rw [runMigrations]
    split_ifs
    · have hup : RowsKept ["schema_version"] backend.conn
          (executeBatch m.sqlUp backend.conn).1 :=
        rowsKept_executeBatch fun s hs => keepsRows_sqlUp hm hs
      cases hbatch : executeBatch m.sqlUp backend.conn with
      | mk db₁ e =>
        rw [hbatch] at hup
        cases e with
        | some e => exact hup
        | none =>
          cases hexec : (m.record now).execute db₁ with
          | error e =>
            simp only [hexec]
            exact hup
          | ok db₂ =>
            simp only [hexec]
            exact (hup.trans ((keepsRows_record m now).execute hexec)).trans
              (ih hms ⟨db₂, m.version⟩)
    · exact ih hms backend

theorem keepsRows_pending {version : ℕ} (hms : ms ⊆ migrations) :
    ∀ s ∈ pendingStatements now ms version, s.KeepsRows ["schema_version"] := by
  induction ms generalizing version with
  | nil => exact fun s hs => absurd hs List.not_mem_nil
  | cons m ms ih =>
    obtain ⟨hm, hms⟩ := List.cons_subset.mp hms
    rw [pendingStatements]
    split_ifs
    · intro s hs
      rcases List.mem_append.mp hs with hs | hs
      · exact keepsRows_sqlUp hm hs
      · rcases List.mem_cons.mp hs with rfl | hs
        · exact keepsRows_record m now
        · exact ih hms s hs
    · exact ih hms

/-- An open of any database, whether it succeeds, fails or is cut after `k` statements, keeps every
row of every table but the one of the versions. -/
theorem open_keeps_rows (db : Database) (now : String) (k : ℕ) :
    RowsKept ["schema_version"] db (openStorage describe now db).1.conn ∧
      RowsKept ["schema_version"] db
        (executeBatch ((pendingStatements now migrations (loadCurrentVersion db)).take k) db).1 :=
  ⟨rowsKept_runMigrations describe (List.Subset.refl _) ⟨db, loadCurrentVersion db⟩,
    rowsKept_executeBatch fun s hs =>
      keepsRows_pending (List.Subset.refl _) s (List.mem_of_mem_take hs)⟩

/-- An open of a sound database succeeds and completes the schema. -/
theorem Sound.openStorage (h : Sound db) (now : String) :
    ∃ db', openStorage describe now db = (⟨db', 3⟩, .ok ()) ∧ Sound db' ∧
      loadCurrentVersion db' = 3 := by
  obtain ⟨db', hbatch, hsound, hversion⟩ := h.take_pending now
    (pendingStatements now migrations (loadCurrentVersion db)).length
    (List.suffix_refl migrations) (fun m hm => .inl hm)
  rw [List.take_length] at hbatch
  have hlast : migrations.foldl (fun version m => max m.version version) (loadCurrentVersion db)
      = 3 := by
    have hle := h.version_le
    simp only [migrations, List.foldl_cons, List.foldl_nil, initialSchema, addThreatIntel,
      addRetentionAndMetrics]
    omega
  refine ⟨db', ?_, hsound, (hversion le_rfl).trans hlast⟩
  rw [Storage.openStorage, runMigrations_eq describe hbatch, hlast]

end describe

/-! ## A rollback -/

theorem find_migration (h₁ : 1 ≤ n) (h₃ : n ≤ 3) :
    ∃ m ∈ migrations, m.version = n ∧ migrations.find? (·.version = n) = some m := by
  have h : n = 1 ∨ n = 2 ∨ n = 3 := by omega
  rcases h with rfl | rfl | rfl
  · exact ⟨initialSchema, by decide, rfl, rfl⟩
  · exact ⟨addThreatIntel, by decide, rfl, rfl⟩
  · exact ⟨addRetentionAndMetrics, by decide, rfl, rfl⟩

/-- What is known of a session and its database. At version 1 the first migration may have been
rolled back, without the session knowing of it. -/
structure Session (db : Database) (version : ℕ) : Prop where
  pos : 1 ≤ version
  le : version ≤ 3
  recorded : loadCurrentVersion db ≤ version
  holds : 2 ≤ version → ∀ m ∈ migrations, m.version ≤ version → ∀ s ∈ m.sqlUp, s.Holds db

section describe

variable (describe : SqlError → String)

/-- The rollback of the first migration drops its tables, the one of the versions among them, and
fails when it removes its record from there. -/
theorem rollbackMigration_first (db : Database) :
    rollbackMigration describe ⟨db, 1⟩ =
      (⟨db.drop initialSchema.dropped, 1⟩, .error ⟨.migrationFailed,
        "failed to remove migration record v1: " ++ describe (.noSuchTable "schema_version")⟩) := by
  have hbatch : executeBatch initialSchema.sqlDown db = (db.drop initialSchema.dropped, none) :=
    executeBatch_dropTable initialSchema.dropped db
  have hexec : (Statement.deleteKey "schema_version" (.integer initialSchema.version)).execute
      (db.drop initialSchema.dropped) = .error (.noSuchTable "schema_version") := by
    rw [Statement.execute, Database.changeRows, Database.tables_drop_of_mem (by decide)]
  have hfind : migrations.find? (·.version = 1) = some initialSchema := rfl
  simp only [rollbackMigration, if_neg Nat.one_ne_zero, hfind, hbatch, hexec]
  rfl

/-- A rollback of a later migration. -/
theorem Session.rollbackMigration (hsession : Session db n) (h : Consistent upStatements db)
    (hn : 2 ≤ n) :
    ∃ db', rollbackMigration describe ⟨db, n⟩ = (⟨db', n - 1⟩, .ok (some n)) ∧
      Consistent upStatements db' ∧ loadCurrentVersion db' ≤ n - 1 ∧
      (∀ m ∈ migrations, m.version = n → ∀ name ∈ m.dropped, db'.tables name = none) ∧
      ∀ m ∈ migrations, m.version < n → ∀ s ∈ m.sqlUp, s.Holds db' := by
  obtain ⟨m, hm, rfl, hfind⟩ := find_migration hsession.pos hsession.le
  obtain ⟨table, htable, -⟩ := hsession.holds hn initialSchema (by decide) hsession.pos _
    schemaVersion_mem
  have hkept : "schema_version" ∉ m.dropped :=
    table_notMem_dropped m hm initialSchema (by decide) hn _ schemaVersion_mem
  have hbatch : executeBatch m.sqlDown db = (db.drop m.dropped, none) := by
    rw [sqlDown_eq m hm, executeBatch_dropTable]
  have htable₁ : (db.drop m.dropped).tables "schema_version" = some table :=
    (Database.tables_drop_of_notMem hkept).trans htable
  have hexec := (db.drop m.dropped).changeRows_eq htable₁ (deleteRow (.integer m.version))
  set db' := (db.drop m.dropped).put "schema_version"
    { table with rows := deleteRow (.integer m.version) table.rows } with hdb'
  have hext : Extends upStatements (db.drop m.dropped) db' := by
    refine .put fun t ht => ?_
    obtain rfl := Option.some.inj (htable₁.symm.trans ht)
    exact ⟨rfl, fun hname => absurd hname (by decide)⟩
  refine ⟨db', ?_, (h.drop m.dropped).put (h.columns _ table htable), ?_, ?_, ?_⟩
  · have hne : m.version ≠ 0 := by omega
    simp only [Storage.rollbackMigration, if_neg hne, hfind, hbatch, Statement.execute, hexec]
  · rw [hdb', loadCurrentVersion_put, foldr_max_integer_le_iff]
    intro k hk
    obtain ⟨hmem, hk'⟩ := mem_keys_deleteRow.mp hk
    have hne : k ≠ m.version := fun heq => hk' (congrArg SqlValue.integer heq)
    have hle := loadCurrentVersion_le_iff.mp hsession.recorded k
      (by rwa [Database.keysOf_of_some htable])
    omega
  · intro m' hm' heq name hname
    obtain rfl := version_injective m' hm' m hm heq
    have hne : name ≠ "schema_version" := by
      rintro rfl
      exact hkept hname
    rw [hdb', Database.tables_put_of_ne hne, Database.tables_drop_of_mem hname]
  · intro m' hm' hlt s hs
    obtain ⟨_, hready⟩ := exists_ready hm' hs
    exact hready.holds_extends ((hsession.holds hn m' hm' hlt.le s hs).drop
      (table_notMem_dropped m hm m' hm' hlt s hs)) hext

end describe

/-! ## A write -/

theorem writes_spec (h : Consistent upStatements db) (hs : Writes s)
    (hexec : s.execute db = .ok db') :
    Consistent upStatements db' ∧ Extends upStatements db db' ∧
      loadCurrentVersion db' = loadCurrentVersion db := by
  have hchange : ∀ name f, name ≠ "schema_version" ∧ name ≠ "retention_policy" →
      db.changeRows name f = .ok db' →
        Consistent upStatements db' ∧ Extends upStatements db db' ∧
          loadCurrentVersion db' = loadCurrentVersion db := by
    intro name f hname hok
    cases htable : db.tables name with
    | none =>
      rw [Database.changeRows, htable] at hok
      cases hok
    | some table =>
      rw [db.changeRows_eq htable] at hok
      obtain rfl := Except.ok.inj hok
      refine ⟨h.put (h.columns _ table htable), .put fun t ht => ?_, ?_⟩
      · obtain rfl := Option.some.inj (htable.symm.trans ht)
        exact ⟨rfl, fun hseeded => absurd (mem_seededTables.mp hseeded) hname.2⟩
      · rw [loadCurrentVersion_eq, loadCurrentVersion_eq, Database.keysOf_put_of_ne hname.1.symm]
  cases s with
  | createTable name columns => exact hs.elim
  | createIndex name table column => exact hs.elim
  | insertOrIgnore table key values => exact hchange _ _ hs hexec
  | insertOrReplace table key values => exact hchange _ _ hs hexec
  | deleteKey table key => exact hchange _ _ hs hexec
  | dropTable name => exact hs.elim

/-! ## Runs -/

/-- Dropping the table of the versions leaves a database that no open has seen. -/
theorem Sound.drop_schemaVersion (h : Sound db) (names : List String)
    (hmem : "schema_version" ∈ names) :
    Sound (db.drop names) ∧ loadCurrentVersion (db.drop names) = 0 := by
  have hzero : loadCurrentVersion (db.drop names) = 0 := by
    rw [loadCurrentVersion, Database.tables_drop_of_mem hmem]
  refine ⟨⟨h.toConsistent.drop names, hzero ▸ Nat.zero_le 3, fun m hm hle => ?_⟩, hzero⟩
  have hpos := (version_mem m hm).1
  omega

structure StorageHost.Valid (host : StorageHost) : Prop where
  conn : Sound host.conn
  session : ∀ version, host.session = some version → Session host.conn version

variable (describe : SqlError → String) {host : StorageHost}

theorem StorageHost.Valid.step (h : host.Valid) (action : StorageAction) :
    (host.step describe action).Valid := by
  cases action with
  | opened now =>
    obtain ⟨db', hopen, hsound, hversion⟩ := h.conn.openStorage describe now
    simp only [StorageHost.step, hopen]
    refine ⟨hsound, ?_⟩
    rintro version ⟨⟩
    exact ⟨by decide, le_rfl, hversion.le, fun _ m hm hle => hsound.holds m hm (hversion ▸ hle)⟩
  | crashed now statements =>
    obtain ⟨db', hbatch, hsound, -⟩ := h.conn.take_pending now statements
      (List.suffix_refl migrations) (fun m hm => .inl hm)
    simp only [StorageHost.step, hbatch]
    exact ⟨hsound, by rintro _ ⟨⟩⟩
  | rolledBack =>
    cases hsession : host.session with
    | none =>
      simp only [StorageHost.step, hsession]
      exact h
    | some version =>
      have hs := h.session version hsession
      rcases Nat.lt_or_ge version 2 with hlt | hge
      · obtain rfl : version = 1 := Nat.le_antisymm (Nat.le_of_lt_succ hlt) hs.pos
        obtain ⟨hsound, hzero⟩ := h.conn.drop_schemaVersion
          initialSchema.dropped (by decide)
        simp only [StorageHost.step, hsession, rollbackMigration_first]
        refine ⟨hsound, ?_⟩
        rintro _ ⟨⟩
        exact ⟨le_rfl, by decide, hzero ▸ Nat.zero_le 1, fun h => absurd h (by decide)⟩
      · obtain ⟨db', hrollback, hcons, hversion, -, hholds⟩ :=
          hs.rollbackMigration describe h.conn.toConsistent hge
        have hlt : version - 1 < version := by omega
        have hle := hs.le
        have hle₃ : loadCurrentVersion db' ≤ 3 := by omega
        simp only [StorageHost.step, hsession, hrollback]
        refine ⟨⟨hcons, hle₃, fun m hm hle => hholds m hm ?_⟩, ?_⟩
        · exact (hle.trans hversion).trans_lt hlt
        · rintro _ ⟨⟩
          exact ⟨by omega, by omega, hversion, fun _ m hm hle => hholds m hm (hle.trans_lt hlt)⟩
  | wrote statement hwrites =>
    cases hexec : statement.execute host.conn with
    | error e =>
      simp only [StorageHost.step, hexec]
      exact h
    | ok conn =>
      obtain ⟨hcons, hext, hversion⟩ := writes_spec h.conn.toConsistent hwrites hexec
      simp only [StorageHost.step, hexec]
      refine ⟨h.conn.extends hcons hext hversion.le, fun version hsession => ?_⟩
      obtain ⟨hpos, hle, hrecorded, hholds⟩ := h.session version hsession
      refine ⟨hpos, hle, hversion ▸ hrecorded, fun h₂ m hm hle s hs => ?_⟩
      obtain ⟨_, hready⟩ := exists_ready hm hs
      exact hready.holds_extends (hholds h₂ m hm hle s hs) hext

theorem StorageHost.valid_run (actions : List StorageAction) :
    (actions.foldl (StorageHost.step describe) StorageHost.new).Valid := by
  have h : ∀ host : StorageHost, host.Valid →
      (actions.foldl (StorageHost.step describe) host).Valid := by
    induction actions with
    | nil => exact fun _ h => h
    | cons action actions ih => exact fun _ h => ih _ (h.step describe action)
  exact h _ ⟨sound_new, by rintro _ ⟨⟩⟩

/-- After any run of opens, crashes at any statement of an open, rollbacks and writes the next open
completes the schema. -/
theorem open_completes (actions : List StorageAction) (now : String) :
    ∃ conn, openStorage describe now (actions.foldl (StorageHost.step describe) .new).conn =
        (⟨conn, 3⟩, .ok ()) ∧
      loadCurrentVersion conn = 3 ∧ ∀ m ∈ migrations, ∀ s ∈ m.sqlUp, s.Holds conn := by
  obtain ⟨conn, hopen, hsound, hversion⟩ :=
    (StorageHost.valid_run describe actions).conn.openStorage describe now
  refine ⟨conn, hopen, hversion, fun m hm => hsound.holds m hm ?_⟩
  exact hversion ▸ (version_mem m hm).2

/-- A rollback in any run: it undoes the latest migration and keeps the earlier ones; that of the
first migration drops its tables, fails, and the session stays at version 1. -/
theorem rollback_run (actions : List StorageAction) (version : ℕ)
    (h : (actions.foldl (StorageHost.step describe) .new).session = some version) :
    ∃ conn, rollbackMigration describe
          ⟨(actions.foldl (StorageHost.step describe) .new).conn, version⟩ =
        (if version = 1 then (⟨conn, 1⟩, .error ⟨.migrationFailed,
          "failed to remove migration record v1: " ++ describe (.noSuchTable "schema_version")⟩)
        else (⟨conn, version - 1⟩, .ok (some version))) ∧
      loadCurrentVersion conn < version ∧
      (∀ m ∈ migrations, m.version = version → ∀ name ∈ m.dropped, conn.tables name = none) ∧
      ∀ m ∈ migrations, m.version < version → ∀ s ∈ m.sqlUp, s.Holds conn := by
  have hvalid := StorageHost.valid_run describe actions
  have hs := hvalid.session version h
  by_cases hversion : version = 1
  · subst hversion
    obtain ⟨-, hzero⟩ := hvalid.conn.drop_schemaVersion initialSchema.dropped (by decide)
    refine ⟨_, by rw [rollbackMigration_first, if_pos rfl], hzero ▸ Nat.one_pos, ?_, ?_⟩
    · intro m hm heq name hname
      obtain rfl : m = initialSchema := version_injective m hm _ (by decide) heq
      exact Database.tables_drop_of_mem hname
    · intro m hm hlt
      have hpos := (version_mem m hm).1
      omega
  · have hge : 2 ≤ version := by
      have hpos := hs.pos
      omega
    obtain ⟨conn, hrollback, -, hrecorded, hdropped, hholds⟩ :=
      hs.rollbackMigration describe hvalid.conn.toConsistent hge
    exact ⟨conn, by rw [hrollback, if_neg hversion], by omega, hdropped, hholds⟩

theorem rollback_run_opened : ∃ conn, rollbackMigration (fun _ => "")
      ⟨([.opened ""].foldl (StorageHost.step fun _ => "") .new).conn, 3⟩ =
    (⟨conn, 2⟩, .ok (some 3)) := by
  obtain ⟨conn, hrollback, -⟩ := rollback_run (fun _ => "") [.opened ""] 3 rfl
  exact ⟨conn, hrollback⟩

end

end Wardex.Storage
