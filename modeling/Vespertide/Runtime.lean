import Vespertide.Schema
import Vespertide.Support.KeyedView

/-!
The embedded migration runner. One run creates the version table where it is
missing, reads it inside a transaction, executes the migrations above the
version it read and commits; an error rolls the transaction back.
-/
namespace Vespertide

structure EmbeddedMigration where
  version : Nat
  migrationId : String
  comment : String
  postgresSqlBlob : String
  mysqlSqlBlob : String
  sqliteSqlBlob : String
  deriving DecidableEq, Repr

def EmbeddedMigration.sqlBlob (m : EmbeddedMigration) : DatabaseBackend → String
  | .mySql => m.mysqlSqlBlob
  | .sqlite => m.sqliteSqlBlob
  | .postgres => m.postgresSqlBlob

/-- Statements are separated by null characters; empty segments are dropped. -/
def splitSqlBlob (blob : String) : List String :=
  ((blob.toList.splitOn '\x00').filter (· ≠ [])).map String.ofList

def EmbeddedMigration.statements (m : EmbeddedMigration) (backend : DatabaseBackend) :
    List String := splitSqlBlob (m.sqlBlob backend)

/-! Timeouts -/

structure MigrationRuntimeOptions where
  lockTimeoutMs : Option Nat
  statementTimeoutMs : Option Nat
  deriving DecidableEq, Repr

def preTxnTimeoutSql (backend : DatabaseBackend) (options : MigrationRuntimeOptions) :
    List String :=
  match backend, options.lockTimeoutMs with
  | .sqlite, some ms => [s!"PRAGMA busy_timeout = {ms}"]
  | _, _ => []

/-- MySQL counts the lock timeout in seconds: it is rounded up, to one at least. -/
def inTxnTimeoutSql (backend : DatabaseBackend) (options : MigrationRuntimeOptions) :
    List String :=
  match backend with
  | .postgres =>
      (options.lockTimeoutMs.map fun ms => s!"SET LOCAL lock_timeout = {ms}").toList ++
        (options.statementTimeoutMs.map fun ms => s!"SET LOCAL statement_timeout = {ms}").toList
  | .mySql =>
      (options.lockTimeoutMs.map fun ms =>
        s!"SET SESSION innodb_lock_wait_timeout = {max ((ms + 999) / 1000) 1}").toList ++
        (options.statementTimeoutMs.map fun ms =>
          s!"SET SESSION max_execution_time = {ms}").toList
  | .sqlite => []

inductive MigrationError where
  | database (message : String)
  | idMismatch (version : Nat) (expected found : String)
  deriving DecidableEq, Repr

/-! The version table -/

structure VersionRow where
  version : Int
  id : Option String
  deriving DecidableEq, Repr

/-- `version` is the primary key of the table. -/
structure VersionTable where
  rows : List VersionRow
  unique : (rows.map (·.version)).Nodup

def VersionTable.empty : VersionTable := ⟨[], List.nodup_nil⟩

def i32Max : Int := 2147483647

/-- Reading an integer column as `i32`: a value outside its range is an error. -/
def tryGetI32 (value : Int) : Option Int :=
  if -2147483648 ≤ value ∧ value ≤ i32Max then some value else none

def u32TryFrom (value : Int) : Option Nat :=
  if 0 ≤ value ∧ value ≤ 4294967295 then some value.toNat else none

def maxVersion (rows : List VersionRow) : Option Int := (rows.map (·.version)).max?

/-- Every failure to read the maximum counts as no applied migration. -/
def currentVersion (rows : List VersionRow) : Nat :=
  let versionI32 := ((maxVersion rows).bind tryGetI32).getD 0
  (u32TryFrom versionI32).getD 0

def collectVersionIds (rows : List VersionRow) : List (Nat × String) :=
  rows.filterMap fun row =>
    (tryGetI32 row.version).bind fun foundVersion =>
      (u32TryFrom foundVersion).map fun version => (version, row.id.getD "")

def recordedId (rows : List VersionRow) (version : Nat) : Option String :=
  (KeyedView.get Prod.fst (collectVersionIds rows) version).map (·.2)

/-- `INTEGER` has 32 bits on PostgreSQL and MySQL and 64 bits on SQLite. -/
def versionFits (backend : DatabaseBackend) (version : Nat) : Bool :=
  match backend with
  | .sqlite => version ≤ 9223372036854775807
  | _ => (version : Int) ≤ i32Max

def VersionTable.insert (table : VersionTable) (version : Nat) (id : String) : VersionTable :=
  if fresh : (version : Int) ∈ table.rows.map (·.version) then table
  else
    { rows := table.rows ++ [⟨version, some id⟩]
      unique := by
        rw [List.map_append]
        exact List.Nodup.append table.unique (List.nodup_singleton _) (by simpa using fresh) }

theorem max_version_some {rows : List VersionRow} {r : VersionRow} (mem : r ∈ rows) :
    ∃ top ∈ rows, maxVersion rows = some top.version ∧ ∀ r ∈ rows, r.version ≤ top.version := by
  cases h : maxVersion rows with
  | none =>
    rw [maxVersion, List.max?_eq_none_iff, List.map_eq_nil_iff] at h
    simp [h] at mem
  | some top =>
    obtain ⟨top_mem, bound⟩ := List.max?_eq_some_iff.mp h
    obtain ⟨r', mem', rfl⟩ := List.mem_map.mp top_mem
    exact ⟨r', mem', rfl, fun r hr => bound _ (List.mem_map_of_mem hr)⟩

theorem recorded_le_current {rows : List VersionRow} (fits : ∀ r ∈ rows, r.version ≤ i32Max)
    {r : VersionRow} (mem : r ∈ rows) : r.version ≤ (currentVersion rows : Int) := by
  obtain ⟨top, top_mem, top_max, bound⟩ := max_version_some mem
  have le := bound r mem
  have small := fits top top_mem
  simp only [currentVersion, top_max, Option.bind_some, tryGetI32, u32TryFrom]
  unfold i32Max at *
  split <;> simp only [Option.getD_some, Option.getD_none] <;> split <;> simp <;> omega

theorem current_version_unread {rows : List VersionRow} {r : VersionRow} (mem : r ∈ rows)
    (beyond : i32Max < r.version) : currentVersion rows = 0 := by
  obtain ⟨top, _, top_max, bound⟩ := max_version_some mem
  have le := bound r mem
  have unread : tryGetI32 top.version = none := by
    simp only [tryGetI32, ite_eq_right_iff, reduceCtorEq, imp_false]
    omega
  simp [currentVersion, top_max, unread, u32TryFrom]

theorem current_version_recorded (rows : List VersionRow) :
    currentVersion rows = 0 ∨ ∃ r ∈ rows, r.version = (currentVersion rows : Int) := by
  by_cases none : rows = []
  · simp [none, currentVersion, maxVersion, u32TryFrom]
  · obtain ⟨r, rest, rfl⟩ := List.exists_cons_of_ne_nil none
    obtain ⟨top, top_mem, top_max, _⟩ := max_version_some (List.mem_cons_self (a := r) (l := rest))
    by_cases small : -2147483648 ≤ top.version ∧ top.version ≤ i32Max
    · by_cases sign : 0 ≤ top.version
      · refine Or.inr ⟨top, top_mem, ?_⟩
        have fits : top.version ≤ 4294967295 := by
          unfold i32Max at small
          omega
        simp [currentVersion, top_max, tryGetI32, small, u32TryFrom, sign, fits]
      · simp [currentVersion, top_max, tryGetI32, small, u32TryFrom, sign]
    · simp [currentVersion, top_max, tryGetI32, small, u32TryFrom]

theorem mem_version_ids {rows : List VersionRow} {version : Nat} {id : String} :
    (version, id) ∈ collectVersionIds rows ↔
      ∃ r ∈ rows, r.version = version ∧ (version : Int) ≤ i32Max ∧ r.id.getD "" = id := by
  simp only [collectVersionIds, List.mem_filterMap, tryGetI32, u32TryFrom]
  refine exists_congr fun r => and_congr_right fun _ => ?_
  unfold i32Max
  constructor
  · intro read
    split at read
    · simp only [Option.bind_some] at read
      split at read
      · simp only [Option.map_some, Option.some.injEq, Prod.mk.injEq] at read
        exact ⟨by omega, by omega, read.2⟩
      · simp at read
    · simp at read
  · rintro ⟨same, small, rfl⟩
    rw [if_pos (by omega), Option.bind_some, if_pos (by omega)]
    simp [same]

theorem version_ids_nodup (table : VersionTable) :
    ((collectVersionIds table.rows).map (·.1)).Nodup := by
  have unique := table.unique
  generalize table.rows = rows at unique
  induction rows with
  | nil => simp [collectVersionIds]
  | cons r rest ih =>
    rw [List.map_cons, List.nodup_cons] at unique
    have tail := ih unique.2
    cases head : (tryGetI32 r.version).bind fun found =>
        (u32TryFrom found).map fun version => (version, r.id.getD "") with
    | none => simpa [collectVersionIds, head] using tail
    | some entry =>
      have split : collectVersionIds (r :: rest) = entry :: collectVersionIds rest := by
        simp [collectVersionIds, head]
      rw [split, List.map_cons, List.nodup_cons]
      refine ⟨?_, tail⟩
      intro again
      obtain ⟨⟨version, id⟩, mem, same⟩ := List.mem_map.mp again
      obtain ⟨r', mem', here, _⟩ := mem_version_ids.mp mem
      have first : entry ∈ collectVersionIds [r] := by simp [collectVersionIds, head]
      obtain ⟨r'', mem'', there, _⟩ := mem_version_ids.mp (show (entry.1, entry.2) ∈ _ from first)
      simp only [List.mem_singleton] at mem''
      subst mem''
      simp only at same
      exact unique.1 (List.mem_map.mpr ⟨r', mem', by rw [here, there, same]⟩)

theorem recorded_id_some (table : VersionTable) {version : Nat} {id : String} :
    recordedId table.rows version = some id ↔
      ∃ r ∈ table.rows, r.version = version ∧ (version : Int) ≤ i32Max ∧ r.id.getD "" = id := by
  rw [← mem_version_ids]
  simp only [recordedId, Option.map_eq_some_iff, Prod.exists]
  constructor
  · rintro ⟨v, id', found, rfl⟩
    obtain ⟨mem, rfl⟩ := KeyedView.get_some found
    exact mem
  · intro mem
    exact ⟨version, id, KeyedView.get_of_nodup (version_ids_nodup table) mem, rfl⟩

/-! One run -/

/-- What the transaction did: statements of a migration, and its version record. -/
inductive Executed where
  | statement (version : Nat) (sql : String)
  | recorded (version : Nat) (id : String)
  deriving DecidableEq, Repr

structure Database where
  versions : VersionTable
  log : List Executed

/-- `rejects` is the driver's error for a migration statement that fails after
    what the transaction executed; `conflict` its error for a row not taken. -/
structure Server where
  backend : DatabaseBackend
  rejects : List Executed → String → Option String
  conflict : String

structure Transaction where
  versions : VersionTable
  executed : List Executed

structure Progress where
  transaction : Transaction
  error : Option MigrationError

def executeStatements (server : Server) (version : Nat) :
    List String → Transaction → Progress
  | [], txn => ⟨txn, none⟩
  | sql :: rest, txn =>
      match server.rejects txn.executed sql with
      | some e => ⟨txn, some (.database s!"Failed to execute SQL '{sql}': {e}")⟩
      | none => executeStatements server version rest
          { txn with executed := txn.executed ++ [.statement version sql] }

def insertVersion (server : Server) (m : EmbeddedMigration) (txn : Transaction) : Progress :=
  if (m.version : Int) ∈ txn.versions.rows.map (·.version) ∨
      ¬ versionFits server.backend m.version then
    ⟨txn, some (.database s!"Failed to insert version: {server.conflict}")⟩
  else
    -- the id stands between quotes unescaped; one that the command gives is a UUID
    ⟨⟨txn.versions.insert m.version m.migrationId,
      txn.executed ++ [.recorded m.version m.migrationId]⟩, none⟩

def applyMigration (server : Server) (m : EmbeddedMigration) (txn : Transaction) : Progress :=
  let r := executeStatements server m.version (m.statements server.backend) txn
  match r.error with
  | some e => ⟨r.transaction, some e⟩
  | none => insertVersion server m r.transaction

/-- The recorded id that contradicts the migration's own, if any. -/
def divergentId (versionId : Nat → Option String) (m : EmbeddedMigration) : Option String :=
  match versionId m.version with
  | some dbId =>
      if m.migrationId ≠ "" ∧ dbId ≠ "" ∧ dbId ≠ m.migrationId then some dbId else none
  | none => none

def applyMigrations (server : Server) (version : Nat) (versionId : Nat → Option String) :
    List EmbeddedMigration → Transaction → Progress
  | [], txn => ⟨txn, none⟩
  | m :: rest, txn =>
      if version ≥ m.version then applyMigrations server version versionId rest txn
      else
        match divergentId versionId m with
        | some dbId => ⟨txn, some (.idMismatch m.version m.migrationId dbId)⟩
        | none =>
            let r := applyMigration server m txn
            match r.error with
            | some e => ⟨r.transaction, some e⟩
            | none => applyMigrations server version versionId rest r.transaction

/-- `executed` is what the run sent, also when its transaction is rolled back;
    `session` are the timeout statements sent before it. -/
structure RunOutcome where
  session : List String
  executed : List Executed
  error : Option MigrationError
  database : Database

def runEmbeddedMigrationsWithOptions (server : Server) (migrations : List EmbeddedMigration)
    (options : MigrationRuntimeOptions) (db : Database) : RunOutcome :=
  let rows := db.versions.rows
  let r := applyMigrations server (currentVersion rows) (recordedId rows) migrations
    ⟨db.versions, []⟩
  { session := preTxnTimeoutSql server.backend options ++ inTxnTimeoutSql server.backend options
    executed := r.transaction.executed
    error := r.error
    database := if r.error = none then
        ⟨r.transaction.versions, db.log ++ r.transaction.executed⟩
      else db }

end Vespertide
