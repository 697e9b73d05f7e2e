import Mathlib.Data.List.Basic
import Mathlib.Order.Basic
import Wardex.Lib.KeyMap

/-! A database of tables and indexes, the SQL statements that create them where they are missing,
that change rows and that drop tables, and batches of statements outside a transaction.  A schema is
the list of its statements; where each is ready after those before it, a batch of them succeeds on
every database that is consistent with the schema, and loses nothing that is there. -/

namespace Wardex.Lib.Schema

open KeyMap

inductive SqlValue where
  | integer (n : ℕ)
  | text (s : String)
  | null
deriving DecidableEq

/-- The first column of every table is its primary key. -/
structure SqlTable where
  columns : List String
  rows : List (SqlValue × List SqlValue)
deriving DecidableEq

def SqlTable.keys (table : SqlTable) : List SqlValue := table.rows.map Prod.fst

def SqlValue.integer? : SqlValue → Option ℕ
  | integer n => some n
  | text _ | null => none

/-- The tables by their names, and of each index the table it is on. -/
structure Database where
  tables : KeyMap String SqlTable
  indexes : KeyMap String String

def Database.put (db : Database) (name : String) (table : SqlTable) : Database :=
  { db with tables := db.tables.insert name table }

/-- The keys of a table, none where it is missing. -/
def Database.keysOf (db : Database) (name : String) : List SqlValue :=
  ((db.tables name).map SqlTable.keys).getD []

/-- The database without the tables and their indexes. -/
def Database.drop (db : Database) (names : List String) : Database :=
  ⟨fun name => if name ∈ names then none else db.tables name,
    fun index => (db.indexes index).filter (· ∉ names)⟩

inductive SqlError where
  | noSuchTable (name : String)
  | noSuchColumn (name : String)
deriving DecidableEq

/-- `CREATE … IF NOT EXISTS`, `INSERT OR IGNORE`, `INSERT OR REPLACE`, `DELETE` of the row with the
key, and `DROP TABLE IF EXISTS`. -/
inductive Statement where
  | createTable (name : String) (columns : List String)
  | createIndex (name table column : String)
  | insertOrIgnore (table : String) (key : SqlValue) (values : List SqlValue)
  | insertOrReplace (table : String) (key : SqlValue) (values : List SqlValue)
  | deleteKey (table : String) (key : SqlValue)
  | dropTable (name : String)
deriving DecidableEq

/-- The rows of a table as a function of the old ones. -/
def Database.changeRows (db : Database) (name : String)
    (f : List (SqlValue × List SqlValue) → List (SqlValue × List SqlValue)) :
    Except SqlError Database :=
  match db.tables name with
  | none => .error (.noSuchTable name)
  | some table => .ok (db.put name { table with rows := f table.rows })

def insertRow (key : SqlValue) (values : List SqlValue) (rows : List (SqlValue × List SqlValue)) :
    List (SqlValue × List SqlValue) :=
  if key ∈ rows.map Prod.fst then rows else rows ++ [(key, values)]

def deleteRow (key : SqlValue) (rows : List (SqlValue × List SqlValue)) :
    List (SqlValue × List SqlValue) :=
  rows.filter fun row => row.1 ≠ key

def replaceRow (key : SqlValue) (values : List SqlValue) (rows : List (SqlValue × List SqlValue)) :
    List (SqlValue × List SqlValue) :=
  deleteRow key rows ++ [(key, values)]

def Statement.execute (db : Database) : Statement → Except SqlError Database
  | createTable name columns =>
    match db.tables name with
    | some _ => .ok db
    | none => .ok (db.put name ⟨columns, []⟩)
  | createIndex name table column =>
    match db.tables table, db.indexes name with
    | none, _ => .error (.noSuchTable table)
    | some _, some _ => .ok db
    | some t, none =>
      if column ∈ t.columns then .ok { db with indexes := db.indexes.insert name table }
      else .error (.noSuchColumn column)
  | insertOrIgnore table key values => db.changeRows table (insertRow key values)
  | insertOrReplace table key values => db.changeRows table (replaceRow key values)
  | deleteKey table key => db.changeRows table (deleteRow key)
  -- the indexes of a table go with it
  | dropTable name =>
    .ok ⟨db.tables.erase name, fun index => (db.indexes index).filter (· ≠ name)⟩

/-- Without a transaction: where a statement fails, those before it stay executed. -/
def executeBatch : List Statement → Database → Database × Option SqlError
  | [], db => (db, none)
  | s :: ss, db =>
    match s.execute db with
    | .error e => (db, some e)
    | .ok db' => executeBatch ss db'

/-- The table that a statement is about. -/
def Statement.table : Statement → String
  | createTable name _ | dropTable name => name
  | createIndex _ table _ => table
  | insertOrIgnore table .. | insertOrReplace table .. | deleteKey table _ => table

/-- What the statement of a schema is for is in the database. -/
def Statement.Holds (db : Database) : Statement → Prop
  | createTable name columns => ∃ table, db.tables name = some table ∧ table.columns = columns
  | createIndex name table _ => db.indexes name = some table
  | insertOrIgnore table key _ => ∃ t, db.tables table = some t ∧ key ∈ t.keys
  | insertOrReplace .. | deleteKey .. | dropTable _ => False

def Statement.columnsOf? (name : String) : Statement → Option (List String)
  | createTable n columns => if n = name then some columns else none
  | _ => none

def Statement.tableOf? (index : String) : Statement → Option String
  | createIndex n table _ => if n = index then some table else none
  | _ => none

section

variable (schema : List Statement)

def columnsOf (name : String) : Option (List String) :=
  schema.findSome? (Statement.columnsOf? name)

def tableOf (index : String) : Option String := schema.findSome? (Statement.tableOf? index)

/-- The tables that the schema inserts rows into. -/
def seededTables : List String :=
  schema.filterMap fun
    | .insertOrIgnore table .. => some table
    | _ => none

/-- The database has no other tables and indexes than those of the schema. -/
structure Consistent (db : Database) : Prop where
  columns : ∀ name table, db.tables name = some table → columnsOf schema name = some table.columns
  indexes : ∀ name table, db.indexes name = some table →
    tableOf schema name = some table ∧ (db.tables table).isSome

/-- No table and no index of `db` is missing in `db'`, and no row of a table that the schema inserts
rows into. -/
structure Extends (db db' : Database) : Prop where
  tables : ∀ name table, db.tables name = some table → ∃ table', db'.tables name = some table' ∧
    table'.columns = table.columns ∧ (name ∈ seededTables schema → table.keys ⊆ table'.keys)
  indexes : ∀ name table, db.indexes name = some table → db'.indexes name = some table

/-- The statement fits the schema, and the statements before it create what it needs. -/
def Statement.Ready (done : List Statement) : Statement → Prop
  | createTable name columns => columnsOf schema name = some columns
  | createIndex name table column => tableOf schema name = some table ∧
      ∃ columns ∈ columnsOf schema table, createTable table columns ∈ done ∧ column ∈ columns
  | insertOrIgnore table _ _ => table ∈ seededTables schema ∧
      ∃ columns ∈ columnsOf schema table, createTable table columns ∈ done
  | insertOrReplace .. | deleteKey .. | dropTable _ => False

/-- Every statement of the list is ready after those before it. -/
def Ordered : List Statement → List Statement → Prop
  | _, [] => True
  | done, s :: ss => s.Ready schema done ∧ Ordered (done ++ [s]) ss

instance (done : List Statement) : DecidablePred (Statement.Ready schema done)
  | .createTable .. => inferInstanceAs (Decidable (_ = _))
  | .createIndex .. | .insertOrIgnore .. => inferInstanceAs (Decidable (_ ∧ _))
  | .insertOrReplace .. | .deleteKey .. | .dropTable _ => inferInstanceAs (Decidable False)

instance decidableOrdered : (done ss : List Statement) → Decidable (Ordered schema done ss)
  | _, [] => inferInstanceAs (Decidable True)
  | done, s :: ss =>
    have := decidableOrdered (done ++ [s]) ss
    inferInstanceAs (Decidable (_ ∧ _))

end

variable {schema : List Statement} {db db' db'' : Database} {s : Statement}
  {ss done : List Statement} {name other : String} {table : SqlTable} {names : List String}

/-! ## Rows -/

theorem mem_keys_deleteRow {rows : List (SqlValue × List SqlValue)} {key key' : SqlValue} :
    key' ∈ (deleteRow key rows).map Prod.fst ↔ key' ∈ rows.map Prod.fst ∧ key' ≠ key := by
  simp only [deleteRow, List.mem_map, List.mem_filter, decide_eq_true_eq]
  constructor
  · rintro ⟨row, ⟨hrow, hne⟩, rfl⟩
    exact ⟨⟨row, hrow, rfl⟩, hne⟩
  · rintro ⟨⟨row, hrow, rfl⟩, hne⟩
    exact ⟨row, ⟨hrow, hne⟩, rfl⟩

theorem mem_keys_replaceRow {rows : List (SqlValue × List SqlValue)} {key key' : SqlValue}
    {values : List SqlValue} : key' ∈ (replaceRow key values rows).map Prod.fst ↔
      key' = key ∨ key' ∈ rows.map Prod.fst := by
  rw [replaceRow, List.map_append, List.mem_append, mem_keys_deleteRow, List.map_singleton,
    List.mem_singleton]
  by_cases h : key' = key
  · simp [h]
  · simp [h]

theorem keys_insertRow (rows : List (SqlValue × List SqlValue)) (key : SqlValue)
    (values : List SqlValue) : rows.map Prod.fst ⊆ (insertRow key values rows).map Prod.fst ∧
      key ∈ (insertRow key values rows).map Prod.fst := by
  unfold insertRow
  split_ifs with h
  · exact ⟨List.Subset.refl _, h⟩
  · simp

/-! ## Tables -/

@[simp] theorem Database.tables_put_self : (db.put name table).tables name = some table :=
  KeyMap.insert_self ..

theorem Database.tables_put_of_ne (h : other ≠ name) :
    (db.put name table).tables other = db.tables other :=
  KeyMap.insert_of_ne _ h _

@[simp] theorem Database.indexes_put : (db.put name table).indexes = db.indexes := rfl

theorem Database.keysOf_put_of_ne (h : other ≠ name) :
    (db.put name table).keysOf other = db.keysOf other := by
  rw [Database.keysOf, Database.keysOf, Database.tables_put_of_ne h]

theorem Database.keysOf_put_self : (db.put name table).keysOf name = table.keys := by
  rw [Database.keysOf, Database.tables_put_self, Option.map_some, Option.getD_some]

theorem Database.keysOf_of_some (h : db.tables name = some table) :
    db.keysOf name = table.keys := by
  rw [Database.keysOf, h, Option.map_some, Option.getD_some]

theorem Database.keysOf_of_none (h : db.tables name = none) : db.keysOf name = [] := by
  rw [Database.keysOf, h, Option.map_none, Option.getD_none]

theorem Database.changeRows_eq (h : db.tables name = some table)
    (f : List (SqlValue × List SqlValue) → List (SqlValue × List SqlValue)) :
    db.changeRows name f = .ok (db.put name { table with rows := f table.rows }) := by
  rw [Database.changeRows, h]

theorem Consistent.put (h : Consistent schema db)
    (hcolumns : columnsOf schema name = some table.columns) :
    Consistent schema (db.put name table) where
  columns other t ht := by
    by_cases hother : other = name
    · subst hother
      rw [Database.tables_put_self] at ht
      obtain rfl := Option.some.inj ht
      exact hcolumns
    · rw [Database.tables_put_of_ne hother] at ht
      exact h.columns other t ht
  indexes index t hindex := by
    obtain ⟨htableOf, hsome⟩ := h.indexes index t hindex
    refine ⟨htableOf, ?_⟩
    by_cases ht : t = name
    · rw [ht, Database.tables_put_self, Option.isSome_some]
    · rwa [Database.tables_put_of_ne ht]

theorem Extends.put (hkeep : ∀ t, db.tables name = some t → table.columns = t.columns ∧
      (name ∈ seededTables schema → t.keys ⊆ table.keys)) :
    Extends schema db (db.put name table) where
  tables other t ht := by
    by_cases hother : other = name
    · subst hother
      exact ⟨table, Database.tables_put_self, hkeep t ht⟩
    · exact ⟨t, (Database.tables_put_of_ne hother).trans ht, rfl, fun _ => List.Subset.refl _⟩
  indexes _ _ h := h

theorem Extends.refl (db : Database) : Extends schema db db where
  tables _ table h := ⟨table, h, rfl, fun _ => List.Subset.refl _⟩
  indexes _ _ h := h

theorem Extends.trans (h : Extends schema db db') (h' : Extends schema db' db'') :
    Extends schema db db'' where
  tables name table htable := by
    obtain ⟨table', htable', hcolumns, hkeys⟩ := h.tables name table htable
    obtain ⟨table'', htable'', hcolumns', hkeys'⟩ := h'.tables name table' htable'
    exact ⟨table'', htable'', hcolumns'.trans hcolumns,
      fun hname => List.Subset.trans (hkeys hname) (hkeys' hname)⟩
  indexes name table hindex := h'.indexes name table (h.indexes name table hindex)

theorem Statement.Ready.holds_extends (hready : s.Ready schema done) (hs : s.Holds db)
    (h : Extends schema db db') : s.Holds db' := by
  cases s with
  | createTable name columns =>
    obtain ⟨table, htable, rfl⟩ := hs
    obtain ⟨table', htable', hcolumns, -⟩ := h.tables name table htable
    exact ⟨table', htable', hcolumns⟩
  | createIndex name table column => exact h.indexes name table hs
  | insertOrIgnore table key values =>
    obtain ⟨t, ht, hkey⟩ := hs
    obtain ⟨t', ht', -, hkeys⟩ := h.tables table t ht
    exact ⟨t', ht', hkeys hready.1 hkey⟩
  | insertOrReplace table key values => exact hs.elim
  | deleteKey table key => exact hs.elim
  | dropTable name => exact hs.elim

/-! ## Batches -/

/-- The execution of a statement of the schema where the statements before it are done. -/
theorem Consistent.execute_ready (h : Consistent schema db) (hready : s.Ready schema done)
    (hdone : ∀ s' ∈ done, s'.Holds db) :
    ∃ db', s.execute db = .ok db' ∧ Consistent schema db' ∧ s.Holds db' ∧ Extends schema db db' ∧
      ∀ name ∉ seededTables schema, db'.keysOf name = db.keysOf name := by
  cases s with
  | createTable name columns =>
    cases htable : db.tables name with
    | some table =>
      have hcolumns : table.columns = columns :=
        Option.some.inj ((h.columns name table htable).symm.trans hready)
      exact ⟨db, by simp only [Statement.execute, htable], h, ⟨table, htable, hcolumns⟩,
        .refl db, fun _ _ => rfl⟩
    | none =>
      have hkeys (other : String) : (db.put name ⟨columns, []⟩).keysOf other = db.keysOf other := by
        by_cases hother : other = name
        · rw [hother, Database.keysOf_put_self, Database.keysOf_of_none htable]
          rfl
        · exact Database.keysOf_put_of_ne hother
      refine ⟨db.put name ⟨columns, []⟩, by simp only [Statement.execute, htable], h.put hready,
        ⟨_, Database.tables_put_self, rfl⟩, .put fun t ht => ?_, fun other _ => hkeys other⟩
      rw [htable] at ht
      cases ht
  | createIndex name table column =>
    obtain ⟨htableOf, columns, hcolumns, hcreate, hcolumn⟩ := hready
    obtain ⟨t, ht, rfl⟩ := hdone _ hcreate
    cases hindex : db.indexes name with
    | some other =>
      have hother : other = table :=
        Option.some.inj ((h.indexes name other hindex).1.symm.trans htableOf)
      exact ⟨db, by simp only [Statement.execute, ht, hindex], h, hother ▸ hindex,
        .refl db, fun _ _ => rfl⟩
    | none =>
      refine ⟨{ db with indexes := db.indexes.insert name table },
        by simp only [Statement.execute, ht, hindex, if_pos hcolumn], ⟨h.columns, ?_⟩,
        KeyMap.insert_self .., ⟨(Extends.refl db).tables, ?_⟩, fun _ _ => rfl⟩
      · intro other t' hother
        by_cases hne : other = name
        · subst hne
          obtain rfl := Option.some.inj ((KeyMap.insert_self ..).symm.trans hother)
          exact ⟨htableOf, Option.isSome_iff_exists.mpr ⟨t, ht⟩⟩
        · exact h.indexes other t' ((KeyMap.insert_of_ne _ hne _).symm.trans hother)
      · intro other t' hother
        have hne : other ≠ name := by
          rintro rfl
          rw [hindex] at hother
          cases hother
        exact (KeyMap.insert_of_ne _ hne _).trans hother
  | insertOrIgnore table key values =>
    obtain ⟨hseeded, columns, -, hcreate⟩ := hready
    obtain ⟨t, ht, -⟩ := hdone _ hcreate
    obtain ⟨hkeys, hkey⟩ := keys_insertRow t.rows key values
    refine ⟨_, db.changeRows_eq ht _, h.put (h.columns _ t ht),
      ⟨_, Database.tables_put_self, hkey⟩, .put fun t' ht' => ?_,
      fun other hother => Database.keysOf_put_of_ne (ne_of_mem_of_not_mem hseeded hother).symm⟩
    obtain rfl := Option.some.inj (ht.symm.trans ht')
    exact ⟨rfl, fun _ => hkeys⟩
  | insertOrReplace table key values => exact hready.elim
  | deleteKey table key => exact hready.elim
  | dropTable name => exact hready.elim

theorem executeBatch_append (ss ss' : List Statement) (db : Database) :
    executeBatch (ss ++ ss') db = (executeBatch ss db).2.elim
      (executeBatch ss' (executeBatch ss db).1) fun e => ((executeBatch ss db).1, some e) := by
  induction ss generalizing db with
  | nil => rfl
  | cons s ss ih =>
    rw [List.cons_append, executeBatch, executeBatch]
    cases s.execute db with
    | error e => rfl
    | ok db' => exact ih db'

/-- After its statements a batch that is ready leaves what all of them are for. -/
theorem Consistent.executeBatch_ordered (h : Consistent schema db)
    (hordered : Ordered schema done ss) (hdone : ∀ s ∈ done, s.Holds db)
    (hready : ∀ s ∈ done, ∃ done, s.Ready schema done) :
    ∃ db', executeBatch ss db = (db', none) ∧ Consistent schema db' ∧
      (∀ s ∈ done ++ ss, s.Holds db') ∧ Extends schema db db' ∧
      ∀ name ∉ seededTables schema, db'.keysOf name = db.keysOf name := by
  induction ss generalizing done db with
  | nil => exact ⟨db, rfl, h, by rwa [List.append_nil], .refl db, fun _ _ => rfl⟩
  | cons s ss ih =>
    obtain ⟨hs, hss⟩ := hordered
    obtain ⟨db₁, hexec, hcons, hholds, hext, hkeys⟩ := h.execute_ready hs hdone
    have hdone₁ : ∀ s' ∈ done ++ [s], s'.Holds db₁ := by
      intro s' hs'
      rcases List.mem_append.mp hs' with hs' | hs'
      · obtain ⟨_, hready'⟩ := hready s' hs'
        exact hready'.holds_extends (hdone s' hs') hext
      · rwa [List.mem_singleton.mp hs']
    have hready₁ : ∀ s' ∈ done ++ [s], ∃ done, s'.Ready schema done := by
      intro s' hs'
      rcases List.mem_append.mp hs' with hs' | hs'
      · exact hready s' hs'
      · exact ⟨done, List.mem_singleton.mp hs' ▸ hs⟩
    obtain ⟨db₂, hbatch, hcons₂, hholds₂, hext₂, hkeys₂⟩ := ih hcons hss hdone₁ hready₁
    refine ⟨db₂, ?_, hcons₂, ?_, hext.trans hext₂,
      fun name hname => (hkeys₂ name hname).trans (hkeys name hname)⟩
    · rw [executeBatch, hexec]
      exact hbatch
    · rwa [List.append_assoc, List.singleton_append] at hholds₂

theorem Ordered.take (h : Ordered schema done ss) (k : ℕ) : Ordered schema done (ss.take k) := by
  induction ss generalizing done k with
  | nil => rwa [List.take_nil]
  | cons s ss ih =>
    cases k with
    | zero => exact trivial
    | succ k => exact ⟨h.1, ih h.2 k⟩

theorem Ordered.ready (h : Ordered schema done ss) (hs : s ∈ ss) : ∃ done, s.Ready schema done := by
  induction ss generalizing done with
  | nil => cases hs
  | cons s' ss ih =>
    rcases List.mem_cons.mp hs with rfl | hs
    · exact ⟨done, h.1⟩
    · exact ih h.2 hs

/-! ## Rows that stay -/

/-- Every table of `db` is in `db'` with its columns and, unless it is among the given ones, with
its rows. -/
def RowsKept (written : List String) (db db' : Database) : Prop :=
  ∀ name table, db.tables name = some table → ∃ table', db'.tables name = some table' ∧
    table'.columns = table.columns ∧ (name ∉ written → table.rows <+: table'.rows)

/-- The statement replaces rows of the given tables only, and deletes none. -/
def Statement.KeepsRows (written : List String) : Statement → Prop
  | createTable .. | createIndex .. | insertOrIgnore .. => True
  | insertOrReplace table .. => table ∈ written
  | deleteKey .. | dropTable _ => False

section

variable {written : List String}

theorem RowsKept.refl (db : Database) : RowsKept written db db :=
  fun _ table h => ⟨table, h, rfl, fun _ => List.prefix_rfl⟩

theorem RowsKept.trans (h : RowsKept written db db') (h' : RowsKept written db' db'') :
    RowsKept written db db'' := by
  intro name table htable
  obtain ⟨table', htable', hcolumns, hrows⟩ := h name table htable
  obtain ⟨table'', htable'', hcolumns', hrows'⟩ := h' name table' htable'
  exact ⟨table'', htable'', hcolumns'.trans hcolumns,
    fun hname => (hrows hname).trans (hrows' hname)⟩

theorem RowsKept.put (h : ∀ t, db.tables name = some t → table.columns = t.columns ∧
      (name ∉ written → t.rows <+: table.rows)) : RowsKept written db (db.put name table) := by
  intro other t ht
  by_cases hother : other = name
  · subst hother
    exact ⟨table, Database.tables_put_self, h t ht⟩
  · exact ⟨t, (Database.tables_put_of_ne hother).trans ht, rfl, fun _ => List.prefix_rfl⟩

theorem RowsKept.changeRows {f : List (SqlValue × List SqlValue) → List (SqlValue × List SqlValue)}
    (hf : name ∉ written → ∀ rows, rows <+: f rows) (h : db.changeRows name f = .ok db') :
    RowsKept written db db' := by
  cases htable : db.tables name with
  | none =>
    rw [Database.changeRows, htable] at h
    cases h
  | some table =>
    rw [db.changeRows_eq htable] at h
    obtain rfl := Except.ok.inj h
    refine .put fun t ht => ?_
    obtain rfl := Option.some.inj (htable.symm.trans ht)
    exact ⟨rfl, fun hname => hf hname _⟩

theorem prefix_insertRow (key : SqlValue) (values : List SqlValue)
    (rows : List (SqlValue × List SqlValue)) : rows <+: insertRow key values rows := by
  unfold insertRow
  split_ifs
  · exact List.prefix_rfl
  · exact List.prefix_append ..

theorem Statement.KeepsRows.execute (hs : s.KeepsRows written) (h : s.execute db = .ok db') :
    RowsKept written db db' := by
  cases s with
  | createTable name columns =>
    rw [Statement.execute] at h
    split at h
    · obtain rfl := Except.ok.inj h
      exact .refl db
    · rename_i htable
      obtain rfl := Except.ok.inj h
      refine .put fun t ht => ?_
      rw [htable] at ht
      cases ht
  | createIndex name table column =>
    rw [Statement.execute] at h
    split at h
    · cases h
    · obtain rfl := Except.ok.inj h
      exact .refl db
    · split_ifs at h
      obtain rfl := Except.ok.inj h
      exact RowsKept.refl db
  | insertOrIgnore table key values =>
    exact .changeRows (fun _ rows => prefix_insertRow key values rows) h
  | insertOrReplace table key values => exact .changeRows (fun hnot => absurd hs hnot) h
  | deleteKey table key => exact hs.elim
  | dropTable name => exact hs.elim

/-- A batch of such statements keeps the rows, also where it fails. -/
theorem rowsKept_executeBatch (h : ∀ s ∈ ss, s.KeepsRows written) :
    RowsKept written db (executeBatch ss db).1 := by
  induction ss generalizing db with
  | nil => exact .refl db
  | cons s ss ih =>
    obtain ⟨hs, hss⟩ := List.forall_mem_cons.mp h
    rw [executeBatch]
    cases hexec : s.execute db with
    | error e => exact .refl db
    | ok db' => exact (hs.execute hexec).trans (ih hss)

end

/-! ## Dropped tables -/

theorem executeBatch_dropTable (names : List String) (db : Database) :
    executeBatch (names.map .dropTable) db = (db.drop names, none) := by
  induction names generalizing db with
  | nil =>
    have hindexes : (fun index => (db.indexes index).filter (· ∉ ([] : List String))) =
        db.indexes := by
      funext index
      cases db.indexes index <;> simp [Option.filter]
    rw [List.map_nil, executeBatch, Database.drop, hindexes]
    simp
  | cons name names ih =>
    rw [List.map_cons, executeBatch, Statement.execute]
    refine (ih _).trans ?_
    congr 1
    simp only [Database.drop, Database.mk.injEq]
    constructor
    · funext other
      by_cases hother : other = name
      · subst hother
        simp
      · simp [hother, KeyMap.erase_of_ne]
    · funext index
      cases db.indexes index with
      | none => rfl
      | some table => by_cases htable : table = name <;> simp [Option.filter, htable]

theorem Database.tables_drop_of_notMem (h : name ∉ names) :
    (db.drop names).tables name = db.tables name := if_neg h

theorem Database.tables_drop_of_mem (h : name ∈ names) :
    (db.drop names).tables name = none := if_pos h

theorem Consistent.drop (h : Consistent schema db) (names : List String) :
    Consistent schema (db.drop names) where
  columns name table htable := by
    by_cases hname : name ∈ names
    · rw [Database.tables_drop_of_mem hname] at htable
      cases htable
    · rw [Database.tables_drop_of_notMem hname] at htable
      exact h.columns name table htable
  indexes name table hindex := by
    obtain ⟨hindex, htable⟩ := Option.filter_eq_some_iff.mp hindex
    obtain ⟨htableOf, hsome⟩ := h.indexes name table hindex
    rw [Database.tables_drop_of_notMem (of_decide_eq_true htable)]
    exact ⟨htableOf, hsome⟩

theorem Statement.Holds.drop (hs : s.Holds db) (h : s.table ∉ names) : s.Holds (db.drop names) := by
  cases s with
  | createTable name columns =>
    obtain ⟨table, htable, hcolumns⟩ := hs
    exact ⟨table, (Database.tables_drop_of_notMem h).trans htable, hcolumns⟩
  | createIndex name table column =>
    exact Option.filter_eq_some_iff.mpr ⟨hs, decide_eq_true h⟩
  | insertOrIgnore table key values =>
    obtain ⟨t, ht, hkey⟩ := hs
    exact ⟨t, (Database.tables_drop_of_notMem h).trans ht, hkey⟩
  | insertOrReplace table key values => exact hs.elim
  | deleteKey table key => exact hs.elim
  | dropTable name => exact hs.elim

end Wardex.Lib.Schema
