import Vespertide.ColumnView
import Vespertide.PlanQueries
import Vespertide.SqliteRebuild

/-!
The columns that a database has after the statements of an action on MySQL or
SQLite. A definition that a column is sent replaces the one it had, and the server
refuses names that are taken or missing.
-/
namespace Vespertide
open Registry

/-! The catalog of columns -/

/-- An integer enum is stored as an integer. -/
def ColumnType.stored : ColumnType → ColumnType
  | .complex (.enum _ (.integer _)) => .simple .integer
  | ty => ty

/-- What the last definition of a column says, its default as the text that is converted for the
    backend; a key makes a column required on top of it. -/
structure CatalogColumn where
  type : ColumnType
  nullable : Bool
  default : Option String
  comment : Option String
  autoIncrement : Bool
  deriving DecidableEq, Repr

abbrev ColumnCatalog := Names String (Names String CatalogColumn)

def SeaColumnDef.entry (c : SeaColumnDef) (comment : Option String) : CatalogColumn :=
  ⟨c.type.stored, !c.notNull, c.default.map (·.toSql), comment, c.autoIncrement⟩

def entriesOf (columns : List SeaColumnDef) : Names String CatalogColumn := fun name =>
  (columns.find? (·.name = name)).map (·.entry none)

def alterTable (db : ColumnCatalog) (table : String)
    (f : Names String CatalogColumn → Option (Names String CatalogColumn)) :
    Option ColumnCatalog :=
  (db table).bind fun columns => (f columns).map fun columns =>
    Function.update db table (some columns)

/-- Statements about rows, indexes, constraints and types keep the columns. So does a data
    migration, which may change no schema; what raw SQL does is not known. -/
def runOnColumns (db : ColumnCatalog) : BuiltQuery → Option ColumnCatalog
  | .createTable stmt =>
      if (stmt.columns.map (·.name)).Nodup then create db stmt.table (entriesOf stmt.columns)
      else none
  | .dropTable table => drop db table
  | .renameTable old new => rename db old new
  | .addColumn table column =>
      alterTable db table fun columns => create columns column.name (column.entry none)
  | .modifyColumn table column comment => alterTable db table fun columns =>
      if columns column.name = none then none
      else some (Function.update columns column.name (some (column.entry comment)))
  | .dropColumn table column => alterTable db table fun columns => drop columns column
  | .renameColumn table old new => alterTable db table fun columns => rename columns old new
  | _ => some db

def BuiltQuery.keepsColumns : BuiltQuery → Bool
  | .createTable _ | .dropTable _ | .renameTable _ _ | .addColumn _ _ | .modifyColumn _ _ _
  | .dropColumn _ _ | .renameColumn _ _ _ => false
  | _ => true

theorem keeping_columns {db : ColumnCatalog} {q : BuiltQuery} (keeps : q.keepsColumns = true) :
    runOnColumns db q = some db := by
  cases q <;> first | rfl | cases keeps

theorem tables_keep_columns {q : BuiltQuery} (keeps : q.keepsTables = true) :
    q.keepsColumns = true := by
  cases q <;> first | rfl | cases keeps

/-- One statement on columns, among others. -/
theorem run_single {db : ColumnCatalog} {before after : List BuiltQuery} {q : BuiltQuery}
    (keep_before : ∀ b ∈ before, b.keepsColumns = true)
    (keep_after : ∀ b ∈ after, b.keepsColumns = true) :
    runSteps runOnColumns db (before ++ q :: after) = runOnColumns db q := by
  rw [run_steps_append, run_steps_idle fun b mem => keeping_columns (keep_before b mem),
    Option.bind_some, runSteps]
  have settled : ∀ s, runSteps runOnColumns s after = some s := fun s =>
    run_steps_idle fun b mem => keeping_columns (keep_after b mem)
  simp only [settled, Option.bind_fun_some]

theorem run_only {db : ColumnCatalog} {q : BuiltQuery} :
    runSteps runOnColumns db [q] = runOnColumns db q :=
  run_single (List.forall_mem_nil _) (List.forall_mem_nil _)

theorem run_none {db : ColumnCatalog} {queries : List BuiltQuery}
    (keep : ∀ b ∈ queries, b.keepsColumns = true) :
    runSteps runOnColumns db queries = some db :=
  run_steps_idle fun b mem => keeping_columns (keep b mem)

/-! Projections -/

section Projection
variable {α β : Type}

def project (f : α → β) (m : Names String (Names String α)) : Names String (Names String β) :=
  fun table => (m table).map fun columns column => (columns column).map f

theorem project_update (f : α → β) (m : Names String (Names String α)) (table : String)
    (columns : Option (Names String α)) :
    project f (Function.update m table columns) =
      Function.update (project f m) table (columns.map fun cs column => (cs column).map f) := by
  funext k
  by_cases own : k = table
  · subst own
    simp [project]
  · simp [project, own]

theorem project_column_update (f : α → β) (columns : Names String α) (column : String)
    (entry : Option α) :
    (fun k => (Function.update columns column entry k).map f) =
      Function.update (fun k => (columns k).map f) column (entry.map f) := by
  funext k
  by_cases own : k = column
  · subst own
    simp
  · simp [own]

end Projection

/-- What the statements and replay are to agree on. -/
structure ColumnShape where
  type : ColumnType
  nullable : Bool
  default : Option String
  deriving DecidableEq, Repr

def CatalogColumn.shape (c : CatalogColumn) : ColumnShape := ⟨c.type, c.nullable, c.default⟩

def ColumnAttributes.shape (c : ColumnAttributes) : ColumnShape :=
  ⟨c.type.stored, c.nullable, c.default⟩

/-! What the statements of an action do -/

def changedColumn (c : ColumnDef) : MigrationAction → ColumnDef
  | .modifyColumnType _ _ newType _ _ _ => { c with type := newType }
  | .modifyColumnNullable _ _ nullable _ _ => { c with nullable }
  | .modifyColumnDefault _ _ newDefault _ => { c with default := newDefault.map .string }
  | _ => c

def modifiedColumn : MigrationAction → Option String
  | .modifyColumnType _ column _ _ _ _ | .modifyColumnNullable _ column _ _ _
  | .modifyColumnDefault _ column _ _ | .modifyColumnComment _ column _ => some column
  | _ => none

def sentComment : MigrationAction → Option String
  | .modifyColumnComment _ _ newComment => newComment
  | _ => none

/-- Statements that leave every column of the table as it is. -/
def keepsDefinitions : MigrationAction → Bool
  | .addConstraint _ _ | .removeConstraint _ _ | .replaceConstraint _ _ _
  | .remapEnumValues _ _ _ | .dataMigration _ _ => true
  | _ => false

/-- Replay skips it without knowing its effect. -/
def MigrationAction.isRawSql : MigrationAction → Bool
  | .rawSql _ => true
  | _ => false

inductive CatalogStep (backend : DatabaseBackend) (schema : Schema) (db : ColumnCatalog) :
    MigrationAction → ColumnCatalog → Prop where
  | created (table : String) (columns : List ColumnDef) (constraints emitted : List TableConstraint)
      (free : db table = none) (nodup : (columns.map (·.name)).Nodup) :
      CatalogStep backend schema db (.createTable table columns constraints)
        (Function.update db table
          (some (entriesOf (columns.map (createTableColumn backend emitted)))))
  | dropped (table : String) : CatalogStep backend schema db (.deleteTable table)
      (Function.update db table none)
  | renamed (old new : String) (free : db new = none) :
      CatalogStep backend schema db (.renameTable old new)
        (Function.update (Function.update db new (db old)) old none)
  | added (table : String) (column : ColumnDef) (fillWith : Option String)
      (columns : Names String CatalogColumn) (there : db table = some columns)
      (free : columns column.name = none) : CatalogStep backend schema db
        (MigrationAction.addColumn table column fillWith)
        (Function.update db table (some (Function.update columns column.name
          (some ((buildSeaColumnDef column).entry none)))))
  | columnRenamed (table old new : String) (columns : Names String CatalogColumn)
      (there : db table = some columns) (free : columns new = none) :
      CatalogStep backend schema db (.renameColumn table old new)
        (Function.update db table (some (Function.update (Function.update columns new (columns old))
          old none)))
  | columnDropped (table column : String) (columns : Names String CatalogColumn)
      (there : db table = some columns) : CatalogStep backend schema db
        (.deleteColumn table column)
        (Function.update db table (some (Function.update columns column none)))
  | modified (a : MigrationAction) (column : String) (changes : modifiedColumn a = some column)
      (t : TableDef) (here : tableAt schema (actionTable a) = some t) (c : ColumnDef)
      (found : t.columns.find? (·.name = column) = some c) (columns : Names String CatalogColumn)
      (there : db (actionTable a) = some columns) (on_mysql : backend = .mySql) :
      CatalogStep backend schema db a
        (Function.update db (actionTable a) (some (Function.update columns column
          (some ((buildSeaColumnDef (changedColumn c a)).entry (sentComment a))))))
  | rebuilt (a : MigrationAction) (may : mayRebuild a = true) (t : TableDef)
      (here : tableAt schema (actionTable a) = some t) (emitted : List TableConstraint)
      (nodup : ((rebuiltColumns t a).map (·.name)).Nodup) (on_sqlite : backend = .sqlite) :
      CatalogStep backend schema db a (Function.update db (actionTable a)
        (some (entriesOf ((rebuiltColumns t a).map (createTableColumn backend emitted)))))
  | uncommented (table column : String) (newComment : Option String)
      (on_sqlite : backend = .sqlite) : CatalogStep backend schema db
        (.modifyColumnComment table column newComment) db
  | kept (a : MigrationAction) (keeps : keepsDefinitions a = true) :
      CatalogStep backend schema db a db

/-! Statements between -/

theorem narrowing_rows_keep {backend : DatabaseBackend} {table column : String}
    {newType : ColumnType} {strategy : NarrowingStrategy} {schema : Schema}
    {rows : List BuiltQuery}
    (built : buildNarrowingPreprocess backend table column newType strategy schema = .ok rows) :
    ∀ q ∈ rows, q.keepsColumns = true := by
  have truncated : ∀ {kind}, buildTruncate backend table column kind = .ok rows →
      ∀ q ∈ rows, q.keepsColumns = true := by
    intro kind ok
    cases kind <;> simp only [buildTruncate, Except.ok.injEq, reduceCtorEq] at ok <;>
      simp [← ok, stringLeftUpdate, numericRoundUpdate, BuiltQuery.keepsColumns]
  have mapped : ∀ {e : Except QueryError String} {f : String → BuiltQuery},
      (∀ s, (f s).keepsColumns = true) → (e.map fun s => [f s]) = .ok rows →
        ∀ q ∈ rows, q.keepsColumns = true := by
    intro e f keeps ok
    cases e with
    | error e => cases ok
    | ok s =>
      obtain rfl := Except.ok.inj ok
      simpa using keeps s
  unfold buildNarrowingPreprocess at built
  split at built
  · obtain rfl := Except.ok.inj built
    simp
  · split at built
    · obtain rfl := Except.ok.inj built
      simp
    · exact truncated built
    · exact mapped (fun _ => rfl) built
    · exact mapped (fun _ => rfl) built

theorem fills_keep_columns (table column : String) (fillWith : Option (List (String × String))) :
    ∀ q ∈ fillWithUpdates table column fillWith, q.keepsColumns = true := fun q mem =>
  tables_keep_columns (fills_keep_tables table column fillWith q mem)

theorem null_rows_keep (backend : DatabaseBackend) (table column : String) (nullable : Bool)
    (fillWith : Option String) (deleteNullRows : Bool) :
    ∀ q ∈ nullRows backend table column nullable fillWith deleteNullRows,
      q.keepsColumns = true := by
  unfold nullRows
  split
  · simp
  · split
    · simp [BuiltQuery.keepsColumns]
    · intro q mem
      obtain ⟨value, _, rfl⟩ := List.mem_map.mp mem
      rfl

theorem enum_types_keep (table : String) (columns : List ColumnDef) (created : List String) :
    ∀ q ∈ createEnumTypes table created columns, q.keepsColumns = true := by
  induction columns generalizing created with
  | nil => simp [createEnumTypes]
  | cons column rest ih =>
    intro q mem
    unfold createEnumTypes at mem
    split at mem
    · split at mem
      · exact ih created q mem
      · split at mem
        · rcases List.mem_cons.mp mem with rfl | tail
          · rfl
          · exact ih _ q tail
        · exact ih _ q mem
    · exact ih created q mem

theorem indexes_keep_columns (table : String) (constraints : List TableConstraint) :
    ∀ q ∈ constraints.flatMap (uniqueIndexes table) ++ constraints.flatMap (plainIndexes table),
      q.keepsColumns = true := by
  intro q mem
  rcases List.mem_append.mp mem with unique | plain
  · obtain ⟨c, _, here⟩ := List.mem_flatMap.mp unique
    cases c <;> simp [uniqueIndexes] at here
    simp [here, BuiltQuery.keepsColumns]
  · obtain ⟨c, _, here⟩ := List.mem_flatMap.mp plain
    cases c <;> simp [plainIndexes] at here
    simp [here, BuiltQuery.keepsColumns]

/-! One statement -/

theorem alter_some {db db' : ColumnCatalog} {table : String}
    {f : Names String CatalogColumn → Option (Names String CatalogColumn)} :
    alterTable db table f = some db' ↔ ∃ columns columns', db table = some columns ∧
      f columns = some columns' ∧ Function.update db table (some columns') = db' := by
  simp only [alterTable, Option.bind_eq_some_iff, Option.map_eq_some_iff]
  constructor
  · rintro ⟨columns, there, columns', done, rfl⟩
    exact ⟨columns, columns', there, done, rfl⟩
  · rintro ⟨columns, columns', there, done, rfl⟩
    exact ⟨columns, there, columns', done, rfl⟩

theorem sea_column_name (c : ColumnDef) : (buildSeaColumnDef c).name = c.name := rfl

theorem created_columns (backend : DatabaseBackend) (emitted : List TableConstraint)
    (columns : List ColumnDef) :
    (columns.map (createTableColumn backend emitted)).map (·.name) = columns.map (·.name) := by
  rw [List.map_map]
  rfl

theorem created_shape (backend : DatabaseBackend) (table : String) (columns : List ColumnDef)
    (constraints : List TableConstraint) : ∃ emitted checks,
      createTableQueries backend table columns constraints = createEnumTypes table [] columns ++
        [.createTable { buildCreateTableForBackend backend table columns emitted with checks }] ++
          ((if backend = .mySql then [] else constraints.flatMap (uniqueIndexes table)) ++
            constraints.flatMap (plainIndexes table)) := by
  refine ⟨if backend = .mySql ∨ ¬ constraints.any (·.isUnique) then constraints
      else constraints.filter (!·.isUnique),
    if backend = .sqlite then collectSqliteEnumCheckClauses table columns else [], ?_⟩
  unfold createTableQueries
  cases backend <;> by_cases unique : constraints.any (·.isUnique) = true <;>
    simp [unique, buildCreateWithChecks, buildCreateTableForBackend]

section Step
variable {backend : DatabaseBackend} {schema : Schema} {db db' : ColumnCatalog}
  {pending : List TableConstraint} {queries : List BuiltQuery}

theorem create_table_step {table : String} {columns : List ColumnDef}
    {constraints : List TableConstraint}
    (built : buildCreateTable backend table columns constraints = .ok queries)
    (ran : runSteps runOnColumns db queries = some db') :
    CatalogStep backend schema db (.createTable table columns constraints) db' := by
  unfold buildCreateTable at built
  split at built
  · cases built
  · rename_i t normal
    obtain rfl := Except.ok.inj built
    have same : t.columns = columns := by rw [normalize_value normal]
    obtain ⟨emitted, checks, shape⟩ := created_shape backend table t.columns t.constraints
    have keep_after : ∀ q ∈ (if backend = .mySql then [] else
        t.constraints.flatMap (uniqueIndexes table)) ++ t.constraints.flatMap (plainIndexes table),
        q.keepsColumns = true := by
      intro q mem
      refine indexes_keep_columns table t.constraints q ?_
      split at mem
      · exact List.mem_append_right _ mem
      · exact mem
    rw [shape, List.append_assoc, List.singleton_append,
      run_single (enum_types_keep table t.columns []) keep_after] at ran
    simp only [runOnColumns, Option.ite_none_right_eq_some, create_some] at ran
    obtain ⟨nodup, free, rfl⟩ := ran
    have distinct : (columns.map (·.name)).Nodup := by
      rw [← same, ← created_columns backend emitted]
      exact nodup
    have columns_of : (buildCreateTableForBackend backend table t.columns emitted).columns =
        columns.map (createTableColumn backend emitted) := by rw [← same]; rfl
    rw [columns_of]
    exact .created table columns constraints emitted free distinct

theorem add_column_step {table : String} {column : ColumnDef} {fillWith : Option String}
    (built : queries = (buildCreateEnumTypeSql table column.type).toList.map .createEnumType ++
      if !column.nullable ∧ column.default.isNone ∧ fillWith.isSome then
        [BuiltQuery.addColumn table (buildSeaColumnDef { column with nullable := true })] ++
          ((normalizeFillWith fillWith).toList.map fun value =>
            .fillColumn table column.name value false) ++
          [.modifyColumn table (buildSeaColumnDef column) none]
      else [.addColumn table (buildSeaColumnDef column)])
    (ran : runSteps runOnColumns db queries = some db') :
    CatalogStep backend schema db (MigrationAction.addColumn table column fillWith) db' := by
  have types : ∀ q ∈ (buildCreateEnumTypeSql table column.type).toList.map
      BuiltQuery.createEnumType, q.keepsColumns = true := by
    intro q mem
    obtain ⟨sql, _, rfl⟩ := List.mem_map.mp mem
    rfl
  have fills : ∀ q ∈ (normalizeFillWith fillWith).toList.map fun value =>
      BuiltQuery.fillColumn table column.name value false, q.keepsColumns = true := by
    intro q mem
    obtain ⟨value, _, rfl⟩ := List.mem_map.mp mem
    rfl
  rw [built, run_steps_append, run_none types, Option.bind_some] at ran
  split at ran
  · rw [run_steps_append, List.singleton_append, Option.bind_eq_some_iff] at ran
    obtain ⟨next, first, second⟩ := ran
    have begun := (run_single (List.forall_mem_nil _) fills).symm.trans first
    simp only [runOnColumns, alter_some, create_some] at begun
    obtain ⟨columns, columns', there, ⟨free, rfl⟩, rfl⟩ := begun
    have ended := run_only.symm.trans second
    simp only [runOnColumns, alter_some, Function.update_self, Option.some.injEq] at ended
    obtain ⟨held, again, rfl, defined, rfl⟩ := ended
    simp only [Option.ite_none_left_eq_some, Option.some.injEq] at defined
    obtain ⟨_, rfl⟩ := defined
    simp only [sea_column_name, Function.update_idem]
    exact .added table column fillWith columns there free
  · have begun := run_only.symm.trans ran
    simp only [runOnColumns, alter_some, create_some] at begun
    obtain ⟨columns, columns', there, ⟨free, rfl⟩, rfl⟩ := begun
    exact .added table column fillWith columns there free

theorem rebuild_step {a : MigrationAction} {t : TableDef} {constraints : List TableConstraint}
    (may : mayRebuild a = true) (here : tableAt schema (actionTable a) = some t)
    (shape : IsRebuild (actionTable a) (rebuiltColumns t a) constraints queries)
    (ran : runSteps runOnColumns db queries = some db') :
    CatalogStep .sqlite schema db a db' := by
  obtain ⟨before, copy, after, rfl, rows_before, copies, rows_after⟩ := shape
  have created : buildSqliteTempTableCreate (actionTable a ++ "_temp") (actionTable a)
      (rebuiltColumns t a) constraints =
        .createTable (rebuiltStatement (actionTable a) (rebuiltColumns t a) constraints) := by
    simp [buildSqliteTempTableCreate, buildCreateWithChecks, rebuiltStatement,
      buildCreateTableForBackend]
  rw [run_steps_append, run_steps_append,
    run_none fun q mem => tables_keep_columns (rows_before q mem), Option.bind_some] at ran
  have settled : ∀ s, runSteps runOnColumns s after = some s := fun s =>
    run_none fun q mem => tables_keep_columns (rows_after q mem)
  have copied : ∀ s, runOnColumns s copy = some s := fun s =>
    keeping_columns (tables_keep_columns copies)
  simp only [settled, Option.bind_fun_some, runSteps, copied, Option.bind_some, created] at ran
  obtain ⟨next, made, replaced⟩ := Option.bind_eq_some_iff.mp ran
  simp only [runOnColumns, Option.ite_none_right_eq_some] at made
  obtain ⟨nodup, made⟩ := made
  change create db (actionTable a ++ "_temp") (entriesOf ((rebuiltColumns t a).map
    (createTableColumn .sqlite constraints))) = some next at made
  change ((drop next (actionTable a)).bind fun s =>
    rename s (actionTable a ++ "_temp") (actionTable a)) = some db' at replaced
  have apart := temporary_apart (actionTable a)
  obtain ⟨free, made_is⟩ := create_some.mp made
  have present : db (actionTable a) ≠ none := by
    obtain ⟨_, gone, _⟩ := Option.bind_eq_some_iff.mp replaced
    have there := (drop_some.mp gone).1
    rwa [← made_is, Function.update_of_ne apart] at there
  obtain ⟨columns, taken⟩ := Option.ne_none_iff_exists'.mp present
  have by_way := replace_by_way apart taken free
    (entriesOf ((rebuiltColumns t a).map (createTableColumn .sqlite constraints)))
  rw [made, Option.bind_some, replaced] at by_way
  obtain rfl := Option.some.inj by_way
  refine .rebuilt a may t here constraints ?_ rfl
  rw [← created_columns .sqlite constraints]
  exact nodup

/-! MySQL -/

omit db db' queries pending in
theorem changed_name (c : ColumnDef) (a : MigrationAction) : (changedColumn c a).name = c.name := by
  cases a <;> rfl

theorem modified_step {a : MigrationAction} {column : String}
    (changes : modifiedColumn a = some column) {t : TableDef}
    (here : tableAt schema (actionTable a) = some t) {c : ColumnDef}
    (found : t.columns.find? (·.name = column) = some c) {before after : List BuiltQuery}
    (keep_before : ∀ q ∈ before, q.keepsColumns = true)
    (keep_after : ∀ q ∈ after, q.keepsColumns = true)
    (built : queries = before ++ .modifyColumn (actionTable a)
      (buildSeaColumnDef (changedColumn c a)) (sentComment a) :: after)
    (ran : runSteps runOnColumns db queries = some db') : CatalogStep .mySql schema db a db' := by
  rw [built, run_single keep_before keep_after] at ran
  have named : c.name = column := by simpa using List.find?_some found
  simp only [runOnColumns, alter_some, Option.ite_none_left_eq_some, Option.some.injEq,
    sea_column_name, changed_name, named] at ran
  obtain ⟨columns, _, there, ⟨_, rfl⟩, rfl⟩ := ran
  exact .modified a column changes t here c found columns there rfl

omit db db' queries pending in
theorem required_column {table column context : String} {t : TableDef} {c : ColumnDef}
    (table_found : requireTableInSchema schema table context = .ok t)
    (column_found : requireColumnInTable t column = .ok c) :
    tableAt schema table = some t ∧ t.columns.find? (·.name = column) = some c := by
  unfold requireTableInSchema at table_found
  unfold requireColumnInTable at column_found
  split at table_found
  · rename_i here
    obtain rfl := Except.ok.inj table_found
    split at column_found
    · rename_i there
      obtain rfl := Except.ok.inj column_found
      exact ⟨here, there⟩
    · cases column_found
  · cases table_found

omit db db' queries pending in
theorem mysql_definition {table column context : String} {mutator : ColumnDef → ColumnDef}
    {q : BuiltQuery}
    (built : buildMysqlModifyColumnWith table column schema context mutator = .ok q) :
    ∃ t c, tableAt schema table = some t ∧ t.columns.find? (·.name = column) = some c ∧
      q = .modifyColumn table (buildSeaColumnDef (mutator c)) none := by
  obtain ⟨t, table_found, built⟩ := Results.bind_ok built
  obtain ⟨c, column_found, built⟩ := Results.bind_ok built
  obtain rfl := Except.ok.inj built
  obtain ⟨here, found⟩ := required_column table_found column_found
  exact ⟨t, c, here, found, rfl⟩

omit db db' pending in
theorem mysql_comment {table column : String} {newComment : Option String}
    (built : buildModifyColumnComment .mySql table column schema newComment = .ok queries) :
    ∃ t c, tableAt schema table = some t ∧ t.columns.find? (·.name = column) = some c ∧
      queries = [.modifyColumn table (buildSeaColumnDef c) newComment] := by
  obtain ⟨t, table_found, built⟩ := Results.bind_ok built
  obtain ⟨c, column_found, built⟩ := Results.bind_ok built
  obtain rfl := Except.ok.inj built
  obtain ⟨here, found⟩ := required_column table_found column_found
  exact ⟨t, c, here, found, rfl⟩

theorem modify_type_step {table column : String} {newType : ColumnType}
    {fillWith : Option (List (String × String))} {narrowing : Option NarrowingStrategy}
    {timezone : Option String}
    (built : buildWithNarrowingPreprocess .mySql table column schema pending newType fillWith
      narrowing timezone = .ok queries)
    (known : ∃ t c, tableAt schema table = some t ∧ t.columns.find? (·.name = column) = some c)
    (ran : runSteps runOnColumns db queries = some db') : CatalogStep .mySql schema db
      (.modifyColumnType table column newType fillWith narrowing timezone) db' := by
  obtain ⟨t, c, here, found⟩ := known
  have parts : ∃ rows changes, queries = rows ++ changes ∧
      (∀ q ∈ rows, q.keepsColumns = true) ∧ buildModifyColumnTypeWithTimezone .mySql table column
        schema pending newType fillWith timezone = .ok changes := by
    unfold buildWithNarrowingPreprocess at built
    cases narrowing with
    | none =>
      obtain ⟨rows, none_built, built⟩ := Results.bind_ok built
      obtain ⟨changes, changed, built⟩ := Results.bind_ok built
      obtain rfl := Except.ok.inj none_built
      exact ⟨[], changes, (Except.ok.inj built).symm, by simp, changed⟩
    | some strategy =>
      obtain ⟨rows, rows_built, built⟩ := Results.bind_ok built
      obtain ⟨changes, changed, built⟩ := Results.bind_ok built
      exact ⟨rows, changes, (Except.ok.inj built).symm, narrowing_rows_keep rows_built, changed⟩
  obtain ⟨rows, changes, rfl, rows_keep, changed⟩ := parts
  have direct : changes =
      buildModifyColumnTypeDirect .mySql table column schema newType fillWith := by
    cases timezone <;> exact (Except.ok.inj changed).symm
  have defined : retypedColumn .mySql table column schema newType =
      buildSeaColumnDef { c with type := newType } := by
    have named : c.name = column := by simpa using List.find?_some found
    have in_schema : findColumnInSchema schema table column = some c := by
      have first : schema.find? (·.name = table) = some t := here
      rw [findColumnInSchema, first]
      exact found
    simp [retypedColumn, in_schema, buildSeaColumnDef, named]
  have old_type : (findColumnInSchema schema table column).map (·.type) = some c.type := by
    have first : schema.find? (·.name = table) = some t := here
    rw [findColumnInSchema, first, Option.bind_some, found, Option.map_some]
  have types_keep : ∀ q ∈ createNewEnumTypeIfNeeded table (some c.type) newType ++
      dropOldEnumTypeIfNeeded table (some c.type) newType, q.keepsColumns = true := by
    intro q mem
    rcases List.mem_append.mp mem with new | old
    · unfold createNewEnumTypeIfNeeded at new
      split at new
      · split at new
        · obtain ⟨sql, _, rfl⟩ := List.mem_map.mp new
          rfl
        · cases new
      · obtain ⟨sql, _, rfl⟩ := List.mem_map.mp new
        rfl
      · cases new
    · unfold dropOldEnumTypeIfNeeded at old
      split at old
      · split at old
        · rw [List.mem_singleton.mp old]
          rfl
        · cases old
      · rw [List.mem_singleton.mp old]
        rfl
      · cases old
  have whole : rows ++ changes = (rows ++ fillWithUpdates table column fillWith ++
      createNewEnumTypeIfNeeded table (some c.type) newType) ++
        .modifyColumn table (buildSeaColumnDef { c with type := newType }) none ::
          dropOldEnumTypeIfNeeded table (some c.type) newType := by
    have no_swap : ∀ old new, needsPostgresEnumMigration .mySql old new = false := fun _ _ => rfl
    rw [direct]
    unfold buildModifyColumnTypeDirect
    simp [no_swap, old_type, defined]
  refine modified_step (a := .modifyColumnType table column newType fillWith narrowing timezone)
    rfl here found ?_ ?_ whole ran
  · intro q mem
    rcases List.mem_append.mp mem with early | types
    · rcases List.mem_append.mp early with row | fill
      · exact rows_keep q row
      · exact fills_keep_columns table column fillWith q fill
    · exact types_keep q (List.mem_append_left _ types)
  · exact fun q mem => types_keep q (List.mem_append_right _ mem)

omit db db' in
theorem mysql_constraints_keep {a : MigrationAction}
    (built : buildConstraintActionQueries .mySql a schema pending = .ok queries) :
    ∀ q ∈ queries, q.keepsColumns = true := by
  have cleanup : ∀ statements : List (SqlRows.Statement String),
      ∀ q ∈ statements.map BuiltQuery.cleanup, q.keepsColumns = true := by
    intro statements q mem
    obtain ⟨stmt, _, rfl⟩ := List.mem_map.mp mem
    rfl
  have with_one : ∀ (statements : List (SqlRows.Statement String)) (last : BuiltQuery),
      last.keepsColumns = true →
        ∀ q ∈ statements.map BuiltQuery.cleanup ++ [last], q.keepsColumns = true := by
    intro statements last keeps q mem
    rcases List.mem_append.mp mem with row | only
    · exact cleanup statements q row
    · rw [List.mem_singleton.mp only]
      exact keeps
  have added : ∀ {table schema constraint queries}, buildAddConstraint .mySql table schema pending
      constraint = .ok queries → ∀ q ∈ queries, q.keepsColumns = true := by
    intro table schema constraint queries built
    cases constraint with
    | primaryKey autoIncrement columns strategy =>
      obtain rfl := Except.ok.inj built
      exact with_one _ _ rfl
    | unique name columns strategy =>
      obtain rfl := Except.ok.inj built
      exact with_one _ _ rfl
    | foreignKey name columns refTable refColumns onDelete onUpdate strategy =>
      simp only [buildAddConstraint, buildForeignKey] at built
      split at built
      · cases built
      · obtain rfl := Except.ok.inj built
        exact with_one _ _ rfl
    | check name expr strategy =>
      obtain rfl := Except.ok.inj built
      cases strategy <;> simp [buildCheckViolationCleanup, BuiltQuery.keepsColumns]
    | index name columns =>
      obtain rfl := Except.ok.inj built
      simp [BuiltQuery.keepsColumns]
  have removed : ∀ table constraint, ∀ q ∈ mysqlRemoveConstraint table constraint,
      q.keepsColumns = true := by
    intro table constraint q mem
    cases constraint <;> rw [List.mem_singleton.mp mem] <;> rfl
  cases a with
  | addConstraint table constraint => exact added built
  | removeConstraint table constraint =>
    obtain rfl := Except.ok.inj built
    exact removed table constraint
  | replaceConstraint table old new =>
    have joined : (buildAddConstraint .mySql table (replacedSchema table schema old new) pending
        new).map (mysqlRemoveConstraint table old ++ ·) = .ok queries →
          ∀ q ∈ queries, q.keepsColumns = true := by
      intro built
      cases made : buildAddConstraint .mySql table (replacedSchema table schema old new) pending
        new with
      | error e =>
        rw [made] at built
        cases built
      | ok statements =>
        rw [made] at built
        obtain rfl := Except.ok.inj built
        exact List.forall_mem_append.mpr ⟨removed table old, added made⟩
    cases old with
    | foreignKey oldName oldColumns oldTable oldRef oldDelete oldUpdate oldStrategy =>
      cases new with
      | foreignKey newName newColumns refTable refColumns onDelete onUpdate newStrategy =>
        obtain rfl := Except.ok.inj built
        simp [BuiltQuery.keepsColumns]
      | _ => exact joined built
    | _ => exact joined built
  | _ =>
    obtain rfl := Except.ok.inj built
    simp

omit db db' queries pending in
theorem edited_known (names : TableNamesNodup schema) {a : MigrationAction} {s' : Schema}
    (edit : isEdit a = true) (applied : (applyAction schema a).toExcept = .ok s') :
    ∃ t u, tableAt schema (actionTable a) = some t ∧ editStep a t = some u := by
  have is_local : isLocal a = true := by cases a <;> first | rfl | cases edit
  obtain ⟨t', stepped, _⟩ := local_step names is_local applied
  cases here : tableAt schema (actionTable a) with
  | none =>
    rw [here, step_table_missing edit] at stepped
    cases stepped
  | some t =>
    rw [here, step_table_edit edit] at stepped
    obtain ⟨u, step, _⟩ := Option.map_eq_some_iff.mp stepped
    exact ⟨t, u, rfl, step⟩

omit db db' queries pending in
/-- Replay refuses to change a column that is missing. -/
theorem modified_known (names : TableNamesNodup schema) {a : MigrationAction} {s' : Schema}
    {column : String} (changes : modifiedColumn a = some column)
    (applied : (applyAction schema a).toExcept = .ok s') :
    ∃ t c, tableAt schema (actionTable a) = some t ∧
      t.columns.find? (·.name = column) = some c := by
  have edit : isEdit a = true := by cases a <;> first | rfl | cases changes
  obtain ⟨t, u, here, step⟩ := edited_known names edit applied
  have present : column ∈ t.columnNames := by
    have named : ∀ {table : String} {f : ColumnDef → ColumnDef},
        (onColumn table column f t).toOption = some u → column ∈ t.columnNames := by
      intro table f step
      by_contra absent
      simp [onColumn, absent, Outcome.fail, Outcome.toOption] at step
    cases a <;> cases changes <;> exact named step
  obtain ⟨d, mem, named⟩ := List.mem_map.mp present
  cases found : t.columns.find? (·.name = column) with
  | none => simpa [named] using List.find?_eq_none.mp found d mem
  | some c => exact ⟨t, c, here, found⟩

theorem single_step {q : BuiltQuery} (built : queries = [q])
    (ran : runSteps runOnColumns db queries = some db') : runOnColumns db q = some db' := by
  rw [built] at ran
  exact run_only.symm.trans ran

theorem unchanged_step {a : MigrationAction} (keeps : keepsDefinitions a = true)
    (idle : ∀ q ∈ queries, q.keepsColumns = true)
    (ran : runSteps runOnColumns db queries = some db') :
    CatalogStep backend schema db a db' := by
  rw [run_none idle] at ran
  obtain rfl := Option.some.inj ran
  exact .kept a keeps

theorem drop_table_step {table : String} (built : queries = [.dropTable table])
    (ran : runSteps runOnColumns db queries = some db') :
    CatalogStep backend schema db (.deleteTable table) db' := by
  obtain ⟨_, rfl⟩ := drop_some.mp (single_step built ran)
  exact .dropped table

theorem rename_table_step {old new : String} (built : queries = [.renameTable old new])
    (ran : runSteps runOnColumns db queries = some db') :
    CatalogStep backend schema db (.renameTable old new) db' := by
  obtain ⟨_, free, rfl⟩ := rename_some.mp (single_step built ran)
  exact .renamed old new free

theorem rename_column_step {table old new : String}
    (built : queries = [.renameColumn table old new])
    (ran : runSteps runOnColumns db queries = some db') :
    CatalogStep backend schema db (.renameColumn table old new) db' := by
  obtain ⟨columns, _, there, renamed, rfl⟩ := alter_some.mp (single_step built ran)
  obtain ⟨_, free, rfl⟩ := rename_some.mp renamed
  exact .columnRenamed table old new columns there free

theorem drop_column_step {table column : String} {before after : List BuiltQuery}
    (keep_before : ∀ q ∈ before, q.keepsColumns = true)
    (keep_after : ∀ q ∈ after, q.keepsColumns = true)
    (built : queries = before ++ .dropColumn table column :: after)
    (ran : runSteps runOnColumns db queries = some db') :
    CatalogStep backend schema db (.deleteColumn table column) db' := by
  rw [built, run_single keep_before keep_after] at ran
  obtain ⟨columns, _, there, dropped, rfl⟩ := alter_some.mp ran
  obtain ⟨_, rfl⟩ := drop_some.mp dropped
  exact .columnDropped table column columns there

omit db db' queries pending in
theorem type_drops_keep (table : String) (type : Option ColumnType) :
    ∀ q ∈ type.toList.flatMap (buildDropEnumTypeSql table), q.keepsColumns = true := fun q mem =>
  tables_keep_columns (type_drop_keeps type q mem)

omit db db' queries pending in
theorem backfill_keeps (backend : DatabaseBackend) (table column : String)
    (backfill : Option String) : ∀ q ∈ backfill.toList.map fun value =>
      BuiltQuery.changeRows table ("UPDATE " ++ quoteIdent table backend ++ " SET " ++
        quoteIdent column backend ++ " = " ++ value), q.keepsColumns = true := by
  intro q mem
  obtain ⟨value, _, rfl⟩ := List.mem_map.mp mem
  rfl

theorem row_actions_keep {a : MigrationAction} (rows : (∃ table column mapping,
      a = .remapEnumValues table column mapping) ∨
        ∃ sql description, a = .dataMigration sql description)
    (built : buildActionQueriesWithPending backend a schema pending = .ok queries) :
    ∀ q ∈ queries, q.keepsColumns = true := by
  rcases rows with ⟨table, column, mapping, rfl⟩ | ⟨sql, description, rfl⟩
  · obtain rfl := Except.ok.inj built
    unfold buildRemapEnumValues
    split <;> simp [BuiltQuery.keepsColumns]
  · obtain rfl := Except.ok.inj built
    cases sql <;> simp [buildDataMigration, BuiltQuery.keepsColumns]

theorem mysql_step (names : TableNamesNodup schema) {a : MigrationAction} {s' : Schema}
    (known : a.isRawSql = false) (applied : (applyAction schema a).toExcept = .ok s')
    (built : buildActionQueriesWithPending .mySql a schema pending = .ok queries)
    (ran : runSteps runOnColumns db queries = some db') : CatalogStep .mySql schema db a db' := by
  cases a with
  | createTable table columns constraints => exact create_table_step built ran
  | deleteTable table => exact drop_table_step (Except.ok.inj built).symm ran
  | renameTable old new => exact rename_table_step (Except.ok.inj built).symm ran
  | addColumn table column fillWith => exact add_column_step (Except.ok.inj built).symm ran
  | renameColumn table old new => exact rename_column_step (Except.ok.inj built).symm ran
  | deleteColumn table column =>
    refine drop_column_step (List.forall_mem_nil _) ?_ (Except.ok.inj built).symm ran
    exact type_drops_keep table _
  | modifyColumnType table column newType fillWith narrowing timezone =>
    exact modify_type_step built (modified_known names rfl applied) ran
  | modifyColumnNullable table column nullable fillWith deleteNullRows =>
    obtain ⟨q, made, rfl⟩ := Results.map_ok built
    obtain ⟨t, c, here, found, rfl⟩ := mysql_definition made
    exact modified_step (a := .modifyColumnNullable table column nullable fillWith deleteNullRows)
      rfl here found (null_rows_keep .mySql table column nullable fillWith _) (by simp) rfl ran
  | modifyColumnDefault table column newDefault backfill =>
    obtain ⟨q, made, rfl⟩ := Results.map_ok built
    obtain ⟨t, c, here, found, rfl⟩ := mysql_definition made
    exact modified_step (a := .modifyColumnDefault table column newDefault backfill)
      rfl here found (List.forall_mem_nil _) (backfill_keeps .mySql table column backfill) rfl ran
  | modifyColumnComment table column newComment =>
    obtain ⟨t, c, here, found, rfl⟩ := mysql_comment built
    exact modified_step (a := .modifyColumnComment table column newComment)
      rfl here found (List.forall_mem_nil _) (List.forall_mem_nil _) rfl ran
  | addConstraint table constraint =>
    have keep := @mysql_constraints_keep schema pending queries (.addConstraint table constraint)
    exact unchanged_step rfl (keep built) ran
  | removeConstraint table constraint =>
    have keep := @mysql_constraints_keep schema pending queries (.removeConstraint table constraint)
    exact unchanged_step rfl (keep built) ran
  | replaceConstraint table old new =>
    have keep := @mysql_constraints_keep schema pending queries (.replaceConstraint table old new)
    exact unchanged_step rfl (keep built) ran
  | remapEnumValues table column mapping =>
    exact unchanged_step rfl (row_actions_keep (.inl ⟨table, column, mapping, rfl⟩) built) ran
  | rawSql sql => cases known
  | dataMigration sql description =>
    exact unchanged_step rfl (row_actions_keep (.inr ⟨sql, description, rfl⟩) built) ran

/-! SQLite -/

omit schema db db' queries pending backend in
theorem rebuild_rebuilds {table : String} {columns : List ColumnDef}
    {constraints : List TableConstraint} {queries : List BuiltQuery}
    (shape : IsRebuild table columns constraints queries) : Rebuilds queries := by
  obtain ⟨before, copy, after, rfl, _⟩ := shape
  refine ⟨rebuiltStatement table columns constraints, table, ?_, ?_⟩
  · have created : buildSqliteTempTableCreate (table ++ "_temp") table columns constraints =
        .createTable (rebuiltStatement table columns constraints) := by
      simp [buildSqliteTempTableCreate, buildCreateWithChecks, rebuiltStatement,
        buildCreateTableForBackend]
    simp [created]
  · have named : (rebuiltStatement table columns constraints).table = table ++ "_temp" := rfl
    simp [named]

omit schema db db' queries pending backend in
theorem listed_rebuilds (table : String) (createColumns copyColumns : List ColumnDef)
    (createConstraints recreateConstraints pending : List TableConstraint)
    {before : List BuiltQuery} (rows : ∀ q ∈ before, q.keepsTables) :
    Rebuilds (before ++ buildSqliteTableRebuild table createColumns createConstraints copyColumns
      recreateConstraints pending) := by
  have shape := table_rebuild before table createColumns copyColumns createConstraints
    recreateConstraints pending [] rows (by simp)
  rw [List.append_nil] at shape
  exact rebuild_rebuilds shape

omit schema db db' queries pending backend in
theorem handled_keeps {table column : String} {t : TableDef} {ahead : List BuiltQuery}
    (handled : sqliteConstraintHandling table column t = some ahead) :
    ∀ q ∈ ahead, q.keepsTables := by
  unfold sqliteConstraintHandling at handled
  split at handled
  · split at handled
    · cases handled
    · exact handled_keep_tables handled
  · exact handled_keep_tables handled

omit db db' backend in
theorem sqlite_addition {table : String} {constraint : TableConstraint} {t : TableDef}
    (here : tableAt schema table = some t)
    (built : buildAddConstraint .sqlite table schema pending constraint = .ok queries) :
    Rebuilds queries ∨ ∀ q ∈ queries, q.keepsColumns = true := by
  have added : rebuildSqliteTableWithAddedConstraint table schema pending constraint =
      .ok (buildSqliteTableRebuild table t.columns (mergeConstraint t.constraints constraint)
        t.columns t.constraints pending) := by
    rw [rebuildSqliteTableWithAddedConstraint, require_table here]
    rfl
  have cleanup : ∀ statements : List (SqlRows.Statement String),
      ∀ q ∈ statements.map BuiltQuery.cleanup, q.keepsTables := by
    intro statements q mem
    obtain ⟨stmt, _, rfl⟩ := List.mem_map.mp mem
    rfl
  cases constraint with
  | primaryKey autoIncrement columns strategy =>
    simp only [buildAddConstraint, buildPrimaryKey, ↓reduceIte, added] at built
    obtain rfl := Except.ok.inj built
    exact .inl (listed_rebuilds table _ _ _ _ pending (cleanup _))
  | unique name columns strategy =>
    obtain rfl := Except.ok.inj built
    refine .inr (List.forall_mem_append.mpr ⟨fun q mem => ?_, by simp [BuiltQuery.keepsColumns]⟩)
    exact tables_keep_columns (cleanup _ q mem)
  | foreignKey name columns refTable refColumns onDelete onUpdate strategy =>
    simp only [buildAddConstraint, buildForeignKey, added] at built
    split at built
    · cases built
    · obtain rfl := Except.ok.inj built
      exact .inl (listed_rebuilds table _ _ _ _ pending (cleanup _))
  | check name expr strategy =>
    simp only [buildAddConstraint, buildCheck, added] at built
    obtain rfl := Except.ok.inj built
    refine .inl (listed_rebuilds table _ _ _ _ pending ?_)
    cases strategy <;> simp [buildCheckViolationCleanup, BuiltQuery.keepsTables]
  | index name columns =>
    obtain rfl := Except.ok.inj built
    exact .inr (by simp [BuiltQuery.keepsColumns])

omit db db' backend in
theorem sqlite_removal {table : String} {constraint : TableConstraint} {t : TableDef}
    (here : tableAt schema table = some t)
    (built : buildRemoveConstraint .sqlite table schema pending constraint = .ok queries) :
    Rebuilds queries ∨ ∀ q ∈ queries, q.keepsColumns = true := by
  have removed : sqliteRemoveConstraint table schema pending constraint = .ok queries →
      Rebuilds queries := by
    intro ok
    rw [sqliteRemoveConstraint, require_table here] at ok
    obtain rfl := Except.ok.inj ok
    exact listed_rebuilds table _ _ _ _ pending (List.forall_mem_nil _)
  cases constraint with
  | index name columns =>
    obtain rfl := Except.ok.inj built
    exact .inr (by simp [BuiltQuery.keepsColumns])
  | _ => exact .inl (removed built)

theorem sqlite_step (names : TableNamesNodup schema) {a : MigrationAction} {s' : Schema}
    (known : a.isRawSql = false) (applied : (applyAction schema a).toExcept = .ok s')
    (built : buildActionQueriesWithPending .sqlite a schema pending = .ok queries)
    (ran : runSteps runOnColumns db queries = some db') : CatalogStep .sqlite schema db a db' := by
  by_cases rebuilt : isEdit a = true ∧ Rebuilds queries
  · obtain ⟨edit, rebuilt⟩ := rebuilt
    obtain ⟨t, _, here, _⟩ := edited_known names edit applied
    obtain ⟨may, shape⟩ := built_rebuild here built rebuilt
    exact rebuild_step may here shape ran
  have in_place : isEdit a = true → ¬ Rebuilds queries := fun edit again => rebuilt ⟨edit, again⟩
  cases a with
  | createTable table columns constraints => exact create_table_step built ran
  | deleteTable table => exact drop_table_step (Except.ok.inj built).symm ran
  | renameTable old new => exact rename_table_step (Except.ok.inj built).symm ran
  | addColumn table column fillWith =>
    obtain ⟨t, _, here, _⟩ := edited_known names rfl applied
    have located : tableAt schema table = some t := here
    change buildAddColumn .sqlite table schema pending column fillWith = .ok queries at built
    unfold buildAddColumn at built
    rw [require_table located] at built
    split at built
    · have shape : IsRebuild table (t.columns ++ [column]) t.constraints queries := by
        obtain rfl := Except.ok.inj built
        exact ⟨[], _, _, rfl, by simp, rfl, indexes_keep_tables table t.constraints pending⟩
      exact absurd (rebuild_rebuilds shape) (in_place rfl)
    · exact add_column_step (Except.ok.inj built).symm ran
  | renameColumn table old new => exact rename_column_step (Except.ok.inj built).symm ran
  | deleteColumn table column =>
    obtain ⟨t, _, here, _⟩ := edited_known names rfl applied
    have located : schema.find? (·.name = table) = some t := here
    have list := Except.ok.inj built
    simp only [buildDeleteColumn, located] at list
    cases handled : sqliteConstraintHandling table column t with
    | none =>
      rw [handled] at list
      have drops := @type_drop_keeps table ((findColumnInSchema schema table column).map (·.type))
      have shape := table_rebuild [] table (t.columns.filter (·.name ≠ column))
        (t.columns.filter (·.name ≠ column)) (t.constraints.filter (keptWithoutColumn column))
        (t.constraints.filter (keptWithoutColumn column)) pending _ (by simp) drops
      have again := rebuild_rebuilds shape
      rw [List.nil_append] at again
      exact absurd (list ▸ again : Rebuilds queries) (in_place rfl)
    | some ahead =>
      rw [handled] at list
      refine drop_column_step ?_ (type_drops_keep table _) list.symm ran
      exact fun q mem => tables_keep_columns (handled_keeps handled q mem)
  | modifyColumnType table column newType fillWith narrowing timezone =>
    obtain ⟨t, _, here, _⟩ := edited_known names rfl applied
    exact absurd (rebuild_rebuilds (modify_type_rebuild here built)) (in_place rfl)
  | modifyColumnNullable table column nullable fillWith deleteNullRows =>
    obtain ⟨t, _, here, _⟩ := edited_known names rfl applied
    have located : tableAt schema table = some t := here
    obtain ⟨rebuild, made, rfl⟩ := Results.map_ok built
    rw [buildSqliteModifyColumnWith, require_table located] at made
    obtain rfl := Except.ok.inj made
    exact absurd (listed_rebuilds table _ _ _ _ pending (null_rows_keep_tables table column nullable
      fillWith _)) (in_place rfl)
  | modifyColumnDefault table column newDefault backfill =>
    obtain ⟨t, _, here, _⟩ := edited_known names rfl applied
    have located : tableAt schema table = some t := here
    obtain ⟨rebuild, made, rfl⟩ := Results.map_ok built
    rw [buildSqliteModifyColumnWith, require_table located] at made
    obtain rfl := Except.ok.inj made
    have rows : ∀ q ∈ backfill.toList.map fun value => BuiltQuery.changeRows table ("UPDATE " ++
        quoteIdent table .sqlite ++ " SET " ++ quoteIdent column .sqlite ++ " = " ++ value),
        q.keepsTables := by
      intro q mem
      obtain ⟨value, _, rfl⟩ := List.mem_map.mp mem
      rfl
    have shape := table_rebuild [] table
      (mapFirstColumn column (fun c => { c with default := newDefault.map .string }) t.columns)
      t.columns t.constraints t.constraints pending _ (by simp) rows
    exact absurd (rebuild_rebuilds shape) (in_place rfl)
  | modifyColumnComment table column newComment =>
    obtain rfl := Except.ok.inj built
    obtain rfl := Option.some.inj ran
    exact .uncommented table column newComment rfl
  | addConstraint table constraint =>
    obtain ⟨t, _, here, _⟩ := edited_known names rfl applied
    have located : tableAt schema table = some t := here
    rcases sqlite_addition located built with again | keep
    · exact absurd again (in_place rfl)
    · exact unchanged_step rfl keep ran
  | removeConstraint table constraint =>
    obtain ⟨t, _, here, _⟩ := edited_known names rfl applied
    have located : tableAt schema table = some t := here
    rcases sqlite_removal located built with again | keep
    · exact absurd again (in_place rfl)
    · exact unchanged_step rfl keep ran
  | replaceConstraint table old new =>
    obtain ⟨t, _, here, _⟩ := edited_known names rfl applied
    exact absurd (rebuild_rebuilds (replace_constraint_rebuild here built)) (in_place rfl)
  | remapEnumValues table column mapping =>
    exact unchanged_step rfl (row_actions_keep (.inl ⟨table, column, mapping, rfl⟩) built) ran
  | rawSql sql => cases known
  | dataMigration sql description =>
    exact unchanged_step rfl (row_actions_keep (.inr ⟨sql, description, rfl⟩) built) ran

end Step

end Vespertide
