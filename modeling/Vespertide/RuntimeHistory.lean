import Vespertide.RuntimeDivergence

/-!
Histories of runs over one database. The programs of a history embed longer
and longer lists; a run commits or leaves the database as it was. Whatever the
server rejects, the committed database is that of a prefix of the list, and a
run that ends well completes the prefix.
-/
namespace Vespertide

def block (backend : DatabaseBackend) (m : EmbeddedMigration) : List Executed :=
  (m.statements backend).map (.statement m.version) ++ [.recorded m.version m.migrationId]

def versionRow (m : EmbeddedMigration) : VersionRow := ⟨m.version, some m.migrationId⟩

theorem execute_statements_ok {server : Server} {version : Nat} {sqls : List String}
    {txn : Transaction} (ok : (executeStatements server version sqls txn).error = none) :
    (executeStatements server version sqls txn).transaction =
      ⟨txn.versions, txn.executed ++ sqls.map (.statement version)⟩ := by
  induction sqls generalizing txn with
  | nil => simp [executeStatements]
  | cons sql rest ih =>
    simp only [executeStatements] at ok ⊢
    split at ok
    · simp at ok
    · rw [ih ok]
      simp

theorem insert_fresh {table : VersionTable} {version : Nat} {id : String}
    (fresh : (version : Int) ∉ table.rows.map (·.version)) :
    (table.insert version id).rows = table.rows ++ [⟨version, some id⟩] := by
  rw [VersionTable.insert, dif_neg fresh]

theorem apply_migration_ok {server : Server} {m : EmbeddedMigration} {txn : Transaction}
    (ok : (applyMigration server m txn).error = none) :
    (m.version : Int) ∉ txn.versions.rows.map (·.version) ∧
      (applyMigration server m txn).transaction.versions.rows =
        txn.versions.rows ++ [versionRow m] ∧
      (applyMigration server m txn).transaction.executed =
        txn.executed ++ block server.backend m := by
  simp only [applyMigration] at ok ⊢
  split at ok
  · simp at ok
  · rename_i sent
    have reached := execute_statements_ok sent
    simp only [reached, insertVersion] at ok ⊢
    split at ok
    · simp at ok
    · rename_i free
      rw [if_neg free]
      have fresh := (not_or.mp free).1
      exact ⟨fresh, insert_fresh fresh, by simp [block]⟩

theorem apply_migrations_ok {server : Server} {version : Nat} {versionId : Nat → Option String}
    {migrations : List EmbeddedMigration} {txn : Transaction}
    (ok : (applyMigrations server version versionId migrations txn).error = none) :
    let pending := migrations.filter (version < ·.version)
    let r := (applyMigrations server version versionId migrations txn).transaction
    (∀ m ∈ pending, (m.version : Int) ∉ txn.versions.rows.map (·.version)) ∧
      r.versions.rows = txn.versions.rows ++ pending.map versionRow ∧
      r.executed = txn.executed ++ pending.flatMap (block server.backend) := by
  induction migrations generalizing txn with
  | nil => simp [applyMigrations]
  | cons m rest ih =>
    simp only [applyMigrations] at ok ⊢
    split at ok
    · rename_i skipped
      rw [if_pos skipped, List.filter_cons_of_neg (by simpa using skipped)]
      exact ih ok
    · rename_i above
      rw [if_neg above, List.filter_cons_of_pos (by simpa using above)]
      split at ok
      · simp at ok
      · rename_i agrees
        split at ok
        · simp at ok
        · rename_i applied
          obtain ⟨fresh, rows, executed⟩ := apply_migration_ok applied
          obtain ⟨later, rows', executed'⟩ := ih ok
          refine ⟨?_, by simp [rows', rows], by simp [executed', executed]⟩
          intro p mem
          rcases List.mem_cons.mp mem with rfl | mem
          · exact fresh
          · have apart := later p mem
            rw [rows, List.map_append] at apart
            exact fun known => apart (List.mem_append_left _ known)

/-! Histories -/

def Database.fresh : Database := ⟨.empty, []⟩

def Extends (before migrations : List EmbeddedMigration) : Prop :=
  before <+: migrations ∧ Increasing migrations

/-- The list of the last program, and the database its run left behind. -/
inductive History (backend : DatabaseBackend) : List EmbeddedMigration → Database → Prop where
  | start : History backend [] .fresh
  | committed {before migrations : List EmbeddedMigration} {db : Database} (server : Server)
      (options : MigrationRuntimeOptions) (same : server.backend = backend)
      (history : History backend before db) (extended : Extends before migrations)
      (ok : (runEmbeddedMigrationsWithOptions server migrations options db).error = none) :
      History backend migrations
        (runEmbeddedMigrationsWithOptions server migrations options db).database
  | aborted {before migrations : List EmbeddedMigration} {db : Database}
      (history : History backend before db) (extended : Extends before migrations) :
      History backend migrations db

/-- Version 0 is what an empty table reads as, so it counts as applied. -/
def numbered (migrations : List EmbeddedMigration) : List EmbeddedMigration :=
  migrations.filter (·.version ≠ 0)

/-- The database holds the execution of `applied`, and nothing else. -/
structure Holds (backend : DatabaseBackend) (applied : List EmbeddedMigration) (db : Database) :
    Prop where
  rows : db.versions.rows = (numbered applied).map versionRow
  log : db.log = (numbered applied).flatMap (block backend)

theorem mem_held_versions {backend : DatabaseBackend} {applied : List EmbeddedMigration}
    {db : Database} (holds : Holds backend applied db) {m : EmbeddedMigration}
    (mem : m ∈ numbered applied) : (m.version : Int) ∈ db.versions.rows.map (·.version) := by
  rw [holds.rows, List.map_map]
  exact List.mem_map.mpr ⟨m, mem, rfl⟩

theorem pending_complete {backend : DatabaseBackend} {applied later : List EmbeddedMigration}
    {db : Database} (holds : Holds backend applied db) (increasing : Increasing (applied ++ later))
    (fresh : ∀ m ∈ (applied ++ later).filter (currentVersion db.versions.rows < ·.version),
      (m.version : Int) ∉ db.versions.rows.map (·.version)) :
    (applied ++ later).filter (currentVersion db.versions.rows < ·.version) = numbered later := by
  have skipped : ∀ m ∈ applied, ¬ currentVersion db.versions.rows < m.version := by
    intro m mem above
    have held := mem_held_versions holds
      (List.mem_filter.mpr ⟨mem, by simp; omega⟩ : m ∈ numbered applied)
    exact fresh m (List.mem_filter.mpr ⟨List.mem_append_left _ mem, by simpa using above⟩) held
  rw [List.filter_append, List.filter_eq_nil_iff.mpr (by simpa using skipped), List.nil_append]
  refine List.filter_congr fun m mem => ?_
  simp only [ne_eq, decide_not]
  rcases current_version_recorded db.versions.rows with zero | ⟨r, known, same⟩
  · simp [zero, Nat.pos_iff_ne_zero]
  · rw [holds.rows] at known
    obtain ⟨p, held, rfl⟩ := List.mem_map.mp known
    have before := (List.pairwise_append.mp increasing).2.2 p (List.mem_filter.mp held).1 m mem
    simp only [versionRow] at same
    have above : currentVersion db.versions.rows < m.version := by omega
    have numbered : m.version ≠ 0 := by omega
    simp [above, numbered]

theorem run_completes {server : Server} {options : MigrationRuntimeOptions}
    {applied migrations : List EmbeddedMigration} {db : Database}
    (holds : Holds server.backend applied db) (partOf : applied <+: migrations)
    (increasing : Increasing migrations)
    (ok : (runEmbeddedMigrationsWithOptions server migrations options db).error = none) :
    Holds server.backend migrations
      (runEmbeddedMigrationsWithOptions server migrations options db).database := by
  obtain ⟨later, rfl⟩ := partOf
  simp only [runEmbeddedMigrationsWithOptions] at ok
  obtain ⟨fresh, rows, executed⟩ := apply_migrations_ok ok
  have pending := pending_complete holds increasing fresh
  have split : numbered (applied ++ later) = numbered applied ++ numbered later :=
    List.filter_append ..
  simp only [runEmbeddedMigrationsWithOptions, ok, ↓reduceIte]
  rw [pending] at rows executed
  constructor
  · rw [rows, holds.rows, split, List.map_append]
  · rw [executed, holds.log, split, List.flatMap_append, List.nil_append]

/-- Invariant of a history: a prefix of the last list is what the database holds. -/
theorem history_holds {backend : DatabaseBackend} {migrations : List EmbeddedMigration}
    {db : Database} (history : History backend migrations db) :
    ∃ applied, applied <+: migrations ∧ Holds backend applied db := by
  induction history with
  | start => exact ⟨[], List.prefix_rfl, rfl, rfl⟩
  | committed server options same history extended ok ih =>
    subst same
    obtain ⟨applied, partOf, holds⟩ := ih
    exact ⟨_, List.prefix_rfl, run_completes holds (partOf.trans extended.1) extended.2 ok⟩
  | aborted history extended ih =>
    obtain ⟨applied, partOf, holds⟩ := ih
    exact ⟨applied, partOf.trans extended.1, holds⟩

/-- Every migration above version 0 is executed once, in the order of the list. -/
theorem migrations_executed_once (server : Server) (options : MigrationRuntimeOptions)
    {before migrations : List EmbeddedMigration} {db : Database}
    (history : History server.backend before db) (extended : Extends before migrations)
    (ok : (runEmbeddedMigrationsWithOptions server migrations options db).error = none) :
    (runEmbeddedMigrationsWithOptions server migrations options db).database.log =
      (migrations.filter (·.version ≠ 0)).flatMap (block server.backend) := by
  obtain ⟨applied, partOf, holds⟩ := history_holds history
  exact (run_completes holds (partOf.trans extended.1) extended.2 ok).log

def zeroMigrations : List EmbeddedMigration :=
  [⟨0, "zero", "", "", "", "CREATE TABLE a (id INTEGER)"⟩]

/-- A first migration numbered 0 is never executed, and the run ends well. -/
theorem version_zero_lost :
    History .sqlite [] .fresh ∧ Extends [] zeroMigrations ∧
      (runEmbeddedMigrationsWithOptions sqliteServer zeroMigrations ⟨none, none⟩ .fresh).error =
        none ∧
      (runEmbeddedMigrationsWithOptions sqliteServer zeroMigrations ⟨none, none⟩
        .fresh).database.log ≠ zeroMigrations.flatMap (block .sqlite) :=
  ⟨.start, ⟨List.nil_prefix, List.pairwise_singleton _ _⟩, by decide, by decide⟩

theorem first_run_executed_once :
    (runEmbeddedMigrationsWithOptions sqliteServer branchMigrations ⟨none, none⟩
        .fresh).database.log =
      (branchMigrations.filter (·.version ≠ 0)).flatMap (block .sqlite) :=
  migrations_executed_once sqliteServer ⟨none, none⟩ .start
    ⟨List.nil_prefix, by simp [Increasing, branchMigrations]⟩ (by decide)

end Vespertide
