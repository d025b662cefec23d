import Vespertide.Runtime

/-!
Detection of a diverged history. The id comparison stands behind the skip of
the versions up to the maximum read, and a recorded version never exceeds a
maximum that can be read: only an unreadable maximum lets a comparison fire.
-/
namespace Vespertide

def Diverged (table : VersionTable) (m : EmbeddedMigration) : Prop :=
  m.migrationId ≠ "" ∧ ∃ r ∈ table.rows, r.version = m.version ∧
    ∃ id, r.id = some id ∧ id ≠ "" ∧ id ≠ m.migrationId

def Increasing (migrations : List EmbeddedMigration) : Prop :=
  migrations.Pairwise (·.version < ·.version)

def Executed.isStatement : Executed → Bool
  | .statement _ _ => true
  | .recorded _ _ => false

def NoStatements (executed : List Executed) : Prop := ∀ e ∈ executed, e.isStatement = false

/-- The run ends with `IdMismatch` and sent no statement of a migration. -/
def HistoryDetected (outcome : RunOutcome) : Prop :=
  (∃ version expected found, outcome.error = some (.idMismatch version expected found)) ∧
    NoStatements outcome.executed

/-- Nothing the run does with `m` stands in the way of the next migration. -/
def Silent (backend : DatabaseBackend) (table : VersionTable) (m : EmbeddedMigration) : Prop :=
  m.version = 0 ∨ (m.statements backend = [] ∧ (m.version : Int) ∉ table.rows.map (·.version))

/-- The maximum is unreadable as `i32`, and the first diverged migration that
    is compared at all comes after silent ones only. -/
def MismatchReached (backend : DatabaseBackend) (table : VersionTable)
    (migrations : List EmbeddedMigration) : Prop :=
  (∃ r ∈ table.rows, i32Max < r.version) ∧
    ∃ before m later, migrations = before ++ m :: later ∧ 1 ≤ m.version ∧
      (m.version : Int) ≤ i32Max ∧ Diverged table m ∧ ∀ p ∈ before, Silent backend table p

theorem divergent_id_iff (table : VersionTable) (m : EmbeddedMigration) :
    (∃ id, divergentId (recordedId table.rows) m = some id) ↔
      Diverged table m ∧ (m.version : Int) ≤ i32Max := by
  constructor
  · rintro ⟨id, found⟩
    simp only [divergentId] at found
    split at found
    · rename_i dbId recorded
      obtain ⟨r, mem, same, small, rfl⟩ := (recorded_id_some table).mp recorded
      split at found
      · rename_i differs
        cases stored : r.id with
        | none => simp [stored] at differs
        | some id' =>
          simp only [stored, Option.getD_some] at differs
          exact ⟨⟨differs.1, r, mem, same, id', stored, differs.2⟩, small⟩
      · simp at found
    · simp at found
  · rintro ⟨⟨own, r, mem, same, id, stored, nonempty, differs⟩, small⟩
    have recorded : recordedId table.rows m.version = some id :=
      (recorded_id_some table).mpr ⟨r, mem, same, small, by simp [stored]⟩
    exact ⟨id, by simp [divergentId, recorded, own, nonempty, differs]⟩

theorem execute_statements_extends (server : Server) (version : Nat) (sqls : List String)
    (txn : Transaction) :
    txn.executed <+: (executeStatements server version sqls txn).transaction.executed := by
  induction sqls generalizing txn with
  | nil => exact List.prefix_rfl
  | cons sql rest ih =>
    simp only [executeStatements]
    split
    · exact List.prefix_rfl
    · exact (List.prefix_append txn.executed [.statement version sql]).trans
        (ih { txn with executed := txn.executed ++ [.statement version sql] })

theorem apply_migration_extends (server : Server) (m : EmbeddedMigration) (txn : Transaction) :
    txn.executed <+: (applyMigration server m txn).transaction.executed := by
  have sent := execute_statements_extends server m.version (m.statements server.backend) txn
  simp only [applyMigration]
  split
  · exact sent
  · simp only [insertVersion]
    split
    · exact sent
    · exact sent.trans (List.prefix_append _ _)

theorem apply_migrations_extends (server : Server) (version : Nat)
    (versionId : Nat → Option String) (migrations : List EmbeddedMigration) (txn : Transaction) :
    txn.executed <+:
      (applyMigrations server version versionId migrations txn).transaction.executed := by
  induction migrations generalizing txn with
  | nil => exact List.prefix_rfl
  | cons m rest ih =>
    simp only [applyMigrations]
    split
    · exact ih txn
    · split
      · exact List.prefix_rfl
      · split
        · exact apply_migration_extends server m txn
        · exact (apply_migration_extends server m txn).trans (ih _)

theorem apply_migration_statement {server : Server} {m : EmbeddedMigration} (txn : Transaction)
    (nonempty : m.statements server.backend ≠ []) :
    (∃ message, (applyMigration server m txn).error = some (.database message)) ∨
      ∃ e ∈ (applyMigration server m txn).transaction.executed, e.isStatement = true := by
  obtain ⟨sql, rest, sqls⟩ := List.exists_cons_of_ne_nil nonempty
  cases rejected : server.rejects txn.executed sql with
  | some e =>
    refine Or.inl ⟨s!"Failed to execute SQL '{sql}': {e}", ?_⟩
    simp [applyMigration, sqls, executeStatements, rejected]
  | none =>
    right
    refine ⟨.statement m.version sql, ?_, rfl⟩
    have first : Executed.statement m.version sql ∈
        (executeStatements server m.version (m.statements server.backend) txn).transaction.executed := by
      simp only [sqls, executeStatements, rejected]
      exact (execute_statements_extends server m.version rest _).subset (by simp)
    simp only [applyMigration]
    split
    · exact first
    · simp only [insertVersion]
      split
      · exact first
      · exact List.mem_append_left _ first

theorem execute_statements_error {server : Server} {version : Nat} {sqls : List String}
    {txn : Transaction} {e : MigrationError}
    (failed : (executeStatements server version sqls txn).error = some e) :
    ∃ message, e = .database message := by
  induction sqls generalizing txn with
  | nil => simp [executeStatements] at failed
  | cons sql rest ih =>
    simp only [executeStatements] at failed
    split at failed
    · exact ⟨_, (Option.some.inj failed).symm⟩
    · exact ih failed

theorem apply_migration_error {server : Server} {m : EmbeddedMigration} {txn : Transaction}
    {e : MigrationError} (failed : (applyMigration server m txn).error = some e) :
    ∃ message, e = .database message := by
  simp only [applyMigration] at failed
  split at failed
  · rename_i e' sent
    obtain rfl : e' = e := Option.some.inj failed
    exact execute_statements_error sent
  · simp only [insertVersion] at failed
    split at failed
    · exact ⟨_, (Option.some.inj failed).symm⟩
    · simp at failed

theorem apply_migration_no_statement {server : Server} {m : EmbeddedMigration} {txn : Transaction}
    (empty : m.statements server.backend = []) :
    applyMigration server m txn = insertVersion server m txn := by
  simp [applyMigration, empty, executeStatements]

theorem mem_insert_versions {table : VersionTable} {version : Nat} {id : String} {v : Int} :
    v ∈ (table.insert version id).rows.map (·.version) ↔
      v ∈ table.rows.map (·.version) ∨ v = version := by
  simp only [VersionTable.insert]
  split
  · rename_i known
    constructor
    · exact Or.inl
    · rintro (mem | rfl)
      · exact mem
      · exact known
  · simp [List.map_append]

/-- What a loop that skips nothing but version 0 needs to end in a mismatch. -/
def Reaches (server : Server) (versionId : Nat → Option String) (table : VersionTable)
    (migrations : List EmbeddedMigration) : Prop :=
  ∃ before m later, migrations = before ++ m :: later ∧ 1 ≤ m.version ∧
    (∃ id, divergentId versionId m = some id) ∧
    ∀ p ∈ before, p.version = 0 ∨ (divergentId versionId p = none ∧
      p.statements server.backend = [] ∧ (p.version : Int) ∉ table.rows.map (·.version) ∧
      versionFits server.backend p.version = true)

theorem reaches_cons {server : Server} {versionId : Nat → Option String} {table : VersionTable}
    {m : EmbeddedMigration} {rest : List EmbeddedMigration} :
    Reaches server versionId table (m :: rest) ↔
      (1 ≤ m.version ∧ ∃ id, divergentId versionId m = some id) ∨
      ((m.version = 0 ∨ (divergentId versionId m = none ∧ m.statements server.backend = [] ∧
          (m.version : Int) ∉ table.rows.map (·.version) ∧
          versionFits server.backend m.version = true)) ∧
        Reaches server versionId table rest) := by
  constructor
  · rintro ⟨before, m', later, split, pos, diverges, silent⟩
    cases before with
    | nil =>
      obtain ⟨rfl, rfl⟩ := List.cons_eq_cons.mp split
      exact Or.inl ⟨pos, diverges⟩
    | cons p before =>
      obtain ⟨rfl, rfl⟩ := List.cons_eq_cons.mp split
      exact Or.inr ⟨silent m List.mem_cons_self, before, m', later, rfl, pos, diverges,
        fun p hp => silent p (List.mem_cons_of_mem m hp)⟩
  · rintro (⟨pos, diverges⟩ | ⟨first, before, m', later, rfl, pos, diverges, silent⟩)
    · exact ⟨[], m, rest, rfl, pos, diverges, by simp⟩
    · refine ⟨m :: before, m', later, rfl, pos, diverges, ?_⟩
      rintro p hp
      rcases List.mem_cons.mp hp with rfl | later
      · exact first
      · exact silent p later

theorem reaches_insert {server : Server} {versionId : Nat → Option String} {table : VersionTable}
    {version : Nat} {id : String} {migrations : List EmbeddedMigration}
    (above : ∀ m ∈ migrations, version < m.version) :
    Reaches server versionId (table.insert version id) migrations ↔
      Reaches server versionId table migrations := by
  have other : ∀ p ∈ migrations, ((p.version : Int) ∈ (table.insert version id).rows.map
      (·.version) ↔ (p.version : Int) ∈ table.rows.map (·.version)) := by
    intro p hp
    have gt := above p hp
    rw [mem_insert_versions]
    exact ⟨fun h => h.resolve_right (by omega), Or.inl⟩
  constructor <;>
  · rintro ⟨before, m, later, rfl, pos, diverges, silent⟩
    refine ⟨before, m, later, rfl, pos, diverges, fun p hp => (silent p hp).imp_right ?_⟩
    simp only [other p (List.mem_append_left _ hp), imp_self]

theorem no_statements_recorded {executed : List Executed} {version : Nat} {id : String} :
    NoStatements (executed ++ [Executed.recorded version id]) ↔ NoStatements executed := by
  constructor
  · intro none e mem
    exact none e (List.mem_append_left _ mem)
  · intro none e mem
    rcases List.mem_append.mp mem with old | new
    · exact none e old
    · rw [List.mem_singleton.mp new]
      rfl

theorem apply_migrations_mismatch (server : Server) (versionId : Nat → Option String)
    (migrations : List EmbeddedMigration) (increasing : Increasing migrations)
    (txn : Transaction) :
    let r := applyMigrations server 0 versionId migrations txn
    ((∃ version expected found, r.error = some (.idMismatch version expected found)) ∧
        NoStatements r.transaction.executed) ↔
      NoStatements txn.executed ∧ Reaches server versionId txn.versions migrations := by
  induction migrations generalizing txn with
  | nil =>
    simp [applyMigrations, Reaches]
  | cons m rest ih =>
    obtain ⟨above, tail⟩ := List.pairwise_cons.mp increasing
    simp only [applyMigrations, reaches_cons]
    by_cases zero : m.version = 0
    · simp [zero, ih tail]
    · have pos : 1 ≤ m.version := Nat.one_le_iff_ne_zero.mpr zero
      simp only [ge_iff_le, Nat.le_zero, zero, ↓reduceIte, pos, true_and, false_or]
      cases diverges : divergentId versionId m with
      | some id => simp
      | none =>
        simp only [reduceCtorEq, exists_false, true_and, false_or]
        by_cases empty : m.statements server.backend = []
        · rw [apply_migration_no_statement empty]
          by_cases taken : (m.version : Int) ∈ txn.versions.rows.map (·.version) ∨
              ¬ versionFits server.backend m.version
          · have blocked : ¬ ((m.version : Int) ∉ txn.versions.rows.map (·.version) ∧
                versionFits server.backend m.version = true) := by tauto
            simp only [insertVersion, taken, ↓reduceIte, empty, blocked, false_and, and_false,
              iff_false]
            simp
          · have free : (m.version : Int) ∉ txn.versions.rows.map (·.version) ∧
                versionFits server.backend m.version = true := by tauto
            have next := ih tail ⟨txn.versions.insert m.version m.migrationId,
              txn.executed ++ [.recorded m.version m.migrationId]⟩
            rw [insertVersion, if_neg taken]
            rw [no_statements_recorded, reaches_insert above] at next
            simpa only [empty, free, true_and, not_false_eq_true] using next
        · simp only [empty, false_and, and_false, iff_false, not_and]
          rcases apply_migration_statement txn empty with ⟨message, failed⟩ | ⟨e, sent, is⟩
          · simp [failed]
          · split
            · intro _ none
              simp [none e sent] at is
            · intro _ none
              have kept := (apply_migrations_extends server 0 versionId rest
                (applyMigration server m txn).transaction).subset sent
              simp [none e kept] at is

theorem apply_migrations_no_mismatch {server : Server} {version : Nat}
    {versionId : Nat → Option String} {migrations : List EmbeddedMigration} {txn : Transaction}
    (agree : ∀ m ∈ migrations, version < m.version → divergentId versionId m = none)
    {v : Nat} {expected found : String} :
    (applyMigrations server version versionId migrations txn).error ≠
      some (.idMismatch v expected found) := by
  induction migrations generalizing txn with
  | nil => simp [applyMigrations]
  | cons m rest ih =>
    have tail := fun p hp => agree p (List.mem_cons_of_mem m hp)
    simp only [applyMigrations]
    split
    · exact ih tail
    · rename_i above
      rw [agree m List.mem_cons_self (by omega)]
      simp only
      split
      · rename_i e failed
        obtain ⟨message, rfl⟩ := apply_migration_error failed
        simp
      · exact ih tail

/-- A recorded id is compared only above every readable maximum, so never. -/
theorem readable_history_no_mismatch {server : Server} {table : VersionTable}
    (readable : ∀ r ∈ table.rows, r.version ≤ i32Max) {migrations : List EmbeddedMigration}
    {txn : Transaction} {v : Nat} {expected found : String} :
    (applyMigrations server (currentVersion table.rows) (recordedId table.rows) migrations
      txn).error ≠ some (.idMismatch v expected found) := by
  refine apply_migrations_no_mismatch fun m _ above => ?_
  by_contra compared
  obtain ⟨⟨_, r, mem, same, _⟩, _⟩ := (divergent_id_iff table m).mp
    (Option.ne_none_iff_exists'.mp compared)
  have le := recorded_le_current readable mem
  omega

theorem reaches_iff (server : Server) (table : VersionTable) {migrations : List EmbeddedMigration}
    (increasing : Increasing migrations) :
    Reaches server (recordedId table.rows) table migrations ↔
      ∃ before m later, migrations = before ++ m :: later ∧ 1 ≤ m.version ∧
        (m.version : Int) ≤ i32Max ∧ Diverged table m ∧
        ∀ p ∈ before, Silent server.backend table p := by
  constructor
  · rintro ⟨before, m, later, rfl, pos, diverges, silent⟩
    obtain ⟨diverged, small⟩ := (divergent_id_iff table m).mp diverges
    exact ⟨before, m, later, rfl, pos, small, diverged,
      fun p hp => (silent p hp).imp_right fun h => ⟨h.2.1, h.2.2.1⟩⟩
  · rintro ⟨before, m, later, rfl, pos, small, diverged, silent⟩
    refine ⟨before, m, later, rfl, pos, (divergent_id_iff table m).mpr ⟨diverged, small⟩,
      fun p hp => (silent p hp).imp_right ?_⟩
    rintro ⟨empty, fresh⟩
    have lt : p.version < m.version :=
      (List.pairwise_append.mp increasing).2.2 p hp m List.mem_cons_self
    refine ⟨?_, empty, fresh, ?_⟩
    · by_contra compared
      obtain ⟨⟨_, r, mem, same, _⟩, _⟩ := (divergent_id_iff table p).mp
        (Option.ne_none_iff_exists'.mp compared)
      exact fresh (List.mem_map.mpr ⟨r, mem, same⟩)
    · unfold versionFits
      unfold i32Max at *
      split <;> simp <;> omega

theorem detected_iff_reached (server : Server) (options : MigrationRuntimeOptions)
    (db : Database) (migrations : List EmbeddedMigration) (increasing : Increasing migrations) :
    HistoryDetected (runEmbeddedMigrationsWithOptions server migrations options db) ↔
      MismatchReached server.backend db.versions migrations := by
  simp only [HistoryDetected, MismatchReached, runEmbeddedMigrationsWithOptions]
  rw [← reaches_iff server db.versions increasing]
  by_cases beyond : ∃ r ∈ db.versions.rows, i32Max < r.version
  · obtain ⟨r, mem, gt⟩ := beyond
    rw [current_version_unread mem gt]
    have loop := apply_migrations_mismatch server (recordedId db.versions.rows) migrations
      increasing ⟨db.versions, []⟩
    refine loop.trans ⟨fun h => ⟨⟨r, mem, gt⟩, h.2⟩, fun h => ⟨by simp [NoStatements], h.2⟩⟩
  · have readable : ∀ r ∈ db.versions.rows, r.version ≤ i32Max := by
      intro r mem
      by_contra gt
      exact beyond ⟨r, mem, by omega⟩
    constructor
    · rintro ⟨⟨v, expected, found, failed⟩, _⟩
      exact absurd failed (readable_history_no_mismatch readable)
    · rintro ⟨reading, _⟩
      exact absurd reading beyond

/-- A diverged history is reported exactly when its maximum cannot be read. -/
theorem diverged_history_detected_iff (server : Server) (options : MigrationRuntimeOptions)
    (db : Database) (migrations : List EmbeddedMigration) (increasing : Increasing migrations) :
    ((∃ m ∈ migrations, Diverged db.versions m) →
        HistoryDetected (runEmbeddedMigrationsWithOptions server migrations options db)) ↔
      ((∀ m ∈ migrations, ¬ Diverged db.versions m) ∨
        MismatchReached server.backend db.versions migrations) := by
  rw [detected_iff_reached server options db migrations increasing]
  constructor
  · intro detects
    by_cases diverged : ∃ m ∈ migrations, Diverged db.versions m
    · exact Or.inr (detects diverged)
    · exact Or.inl fun m mem d => diverged ⟨m, mem, d⟩
  · rintro (agree | reached) ⟨m, mem, diverged⟩
    · exact absurd diverged (agree m mem)
    · exact reached

/-- Migrated by one branch, and opened by a program built from another. -/
def branchDatabase : Database :=
  ⟨⟨[⟨1, some "branch-a"⟩], List.nodup_singleton _⟩, []⟩

def branchMigrations : List EmbeddedMigration :=
  [⟨1, "branch-b", "", "", "", "CREATE TABLE b (id INTEGER)"⟩,
    ⟨2, "next", "", "", "", "ALTER TABLE b ADD COLUMN x INTEGER"⟩]

def sqliteServer : Server := ⟨.sqlite, fun _ _ => none, "UNIQUE constraint failed"⟩

/-- The second migration runs on top of the other branch's first one. -/
theorem branch_divergence_undetected :
    (∃ m ∈ branchMigrations, Diverged branchDatabase.versions m) ∧
      ¬ HistoryDetected (runEmbeddedMigrationsWithOptions sqliteServer branchMigrations
        ⟨none, none⟩ branchDatabase) := by
  refine ⟨⟨_, List.mem_cons_self, by decide, _, List.mem_cons_self, rfl, _, rfl, by decide,
    by decide⟩, ?_⟩
  rintro ⟨⟨v, expected, found, failed⟩, _⟩
  have ok : (runEmbeddedMigrationsWithOptions sqliteServer branchMigrations ⟨none, none⟩
      branchDatabase).error = none := by decide
  simp [ok] at failed

theorem branch_divergence_condition :
    ((∃ m ∈ branchMigrations, Diverged branchDatabase.versions m) →
        HistoryDetected (runEmbeddedMigrationsWithOptions sqliteServer branchMigrations
          ⟨none, none⟩ branchDatabase)) ↔
      ((∀ m ∈ branchMigrations, ¬ Diverged branchDatabase.versions m) ∨
        MismatchReached .sqlite branchDatabase.versions branchMigrations) :=
  diverged_history_detected_iff sqliteServer ⟨none, none⟩ branchDatabase branchMigrations
    (by simp [Increasing, branchMigrations])

end Vespertide
