import Vespertide.ActionQueries
import Vespertide.Replay
import Vespertide.Support.Registry

/-!
The rebuild of a SQLite table: created anew under a temporary name, from the
columns and the constraints that the builder of the action works out, then put
in the place of the old one.
-/
namespace Vespertide
open Registry

/-! The tables of a SQLite database -/

abbrev TableCatalog := Names String TableCreateStatement

def retargetName (old new name : String) : String := if name = old then new else name

def ForeignKeyCreateStatement.retarget (old new : String) (fk : ForeignKeyCreateStatement) :
    ForeignKeyCreateStatement :=
  { fk with
    fromTable := retargetName old new fk.fromTable
    toTable := retargetName old new fk.toTable }

/-- A rename reaches the references to the table as well. -/
def TableCreateStatement.retarget (old new : String) (stmt : TableCreateStatement) :
    TableCreateStatement :=
  { stmt with
    table := retargetName old new stmt.table
    foreignKeys := stmt.foreignKeys.map (·.retarget old new) }

/-- Statements on rows and indexes, and those SQLite is sent as an empty text. -/
def BuiltQuery.keepsTables : BuiltQuery → Bool
  | .createIndex _ | .dropIndex _ _ | .copyRows _ _ _ | .copyRowsFilling _ _ _ _ _ _
  | .cleanup _ | .checkCleanup _ _ _ | .fillColumn _ _ _ _ | .replaceValue _ _ _ _
  | .changeRows _ _ | .createEnumType _ | .dropEnumType _ | .renameEnumType _ _
  | .castColumn _ _ _ => true
  | _ => false

/-- The statements of a rebuild; one that alters a table in place is refused. -/
def runOnTables (db : TableCatalog) (q : BuiltQuery) : Option TableCatalog :=
  match q with
  | .createTable stmt => create db stmt.table stmt
  | .dropTable table => drop db table
  | .renameTable old new =>
      (rename db old new).map fun db name => (db name).map (·.retarget old new)
  | q => if q.keepsTables then some db else none

def Rebuilds (queries : List BuiltQuery) : Prop :=
  ∃ stmt new, .createTable stmt ∈ queries ∧ .renameTable stmt.table new ∈ queries

/-! What the builders carry over -/

section Carried
variable (t : TableDef)

def rebuiltColumns : MigrationAction → List ColumnDef
  | .addColumn _ column _ => t.columns ++ [column]
  | .deleteColumn _ column => t.columns.filter (·.name ≠ column)
  | .modifyColumnType _ column newType _ _ _ =>
      mapFirstColumn column (fun c => { c with type := newType }) t.columns
  | .modifyColumnNullable _ column nullable _ _ =>
      mapFirstColumn column (fun c => { c with nullable }) t.columns
  | .modifyColumnDefault _ column newDefault _ =>
      mapFirstColumn column (fun c => { c with default := newDefault.map .string }) t.columns
  | _ => t.columns

def rebuiltConstraints : MigrationAction → List TableConstraint
  | .deleteColumn _ column => t.constraints.filter (keptWithoutColumn column)
  | .addConstraint _ constraint => mergeConstraint t.constraints constraint
  | .removeConstraint _ constraint => t.constraints.filter (!sameConstraint · constraint)
  | .replaceConstraint _ old new => t.constraints.map fun c => if c = old then new else c
  | _ => t.constraints

end Carried

/-! What the statements are -/

/-- A rebuild from these columns and constraints, between statements on rows and indexes. -/
def IsRebuild (table : String) (columns : List ColumnDef) (constraints : List TableConstraint)
    (queries : List BuiltQuery) : Prop :=
  ∃ before copy after, queries = before ++
    [buildSqliteTempTableCreate (table ++ "_temp") table columns constraints, copy,
      .dropTable table, .renameTable (table ++ "_temp") table] ++ after ∧
    (∀ q ∈ before, q.keepsTables) ∧ copy.keepsTables ∧ ∀ q ∈ after, q.keepsTables

theorem indexes_keep_tables (table : String) (constraints pending : List TableConstraint) :
    ∀ q ∈ recreateIndexesAfterRebuild table constraints pending, q.keepsTables := by
  intro q mem
  obtain ⟨c, _, here⟩ := List.mem_flatMap.mp mem
  split at here
  · simp at here
  · cases c <;> simp only [plainIndexes, uniqueIndexes, List.nil_append, List.append_nil,
      List.mem_singleton, List.not_mem_nil] at here <;> simp [here, BuiltQuery.keepsTables]

theorem table_rebuild (before : List BuiltQuery) (table : String)
    (createColumns copyColumns : List ColumnDef)
    (createConstraints recreateConstraints pending : List TableConstraint)
    (after : List BuiltQuery) (rows_before : ∀ q ∈ before, q.keepsTables) (rows_after : ∀ q ∈ after, q.keepsTables) :
    IsRebuild table createColumns createConstraints
      (before ++ buildSqliteTableRebuild table createColumns createConstraints copyColumns
        recreateConstraints pending ++ after) := by
  refine ⟨before, .copyRows (table ++ "_temp") table (copyColumns.map (·.name)),
    recreateIndexesAfterRebuild table recreateConstraints pending ++ after, ?_, rows_before, rfl, ?_⟩
  · simp [buildSqliteTableRebuild]
  · intro q mem
    rcases List.mem_append.mp mem with index | row
    · exact indexes_keep_tables table recreateConstraints pending q index
    · exact rows_after q row

theorem no_table_created {queries : List BuiltQuery}
    (none_ : ∀ q ∈ queries, ∀ stmt, q ≠ .createTable stmt) : ¬ Rebuilds queries := by
  intro rebuilds
  obtain ⟨stmt, new, created, _⟩ := rebuilds
  exact none_ _ created stmt rfl

theorem row_statements {rows : List BuiltQuery} {table column : String} {type : ColumnType}
    {strategy : NarrowingStrategy} {schema : List TableDef}
    (built : buildNarrowingPreprocess .sqlite table column type strategy schema = .ok rows) :
    ∀ q ∈ rows, q.keepsTables := by
  have truncated : ∀ {kind}, buildTruncate .sqlite table column kind = .ok rows →
      ∀ q ∈ rows, q.keepsTables := by
    intro kind ok
    cases kind <;> simp only [buildTruncate, Except.ok.injEq, reduceCtorEq] at ok <;>
      simp [← ok, stringLeftUpdate, numericRoundUpdate, BuiltQuery.keepsTables]
  have mapped : ∀ {e : Except QueryError String} {f : String → BuiltQuery},
      (∀ s, (f s).keepsTables) → (e.map fun s => [f s]) = .ok rows → ∀ q ∈ rows, q.keepsTables := by
    intro e f keeps ok
    cases e with
    | error e => cases ok
    | ok s =>
      obtain rfl := Except.ok.inj ok
      simpa using keeps s
  unfold buildNarrowingPreprocess at built
  split at built
  · obtain rfl := Except.ok.inj built
    simp
  · split at built
    · obtain rfl := Except.ok.inj built
      simp
    · exact truncated built
    · exact mapped (fun _ => rfl) built
    · exact mapped (fun _ => rfl) built

theorem fills_keep_tables (table column : String) (fillWith : Option (List (String × String))) :
    ∀ q ∈ fillWithUpdates table column fillWith, q.keepsTables := by
  intro q mem
  cases fillWith with
  | none => simp [fillWithUpdates] at mem
  | some fills =>
    obtain ⟨fill, _, rfl⟩ := List.mem_map.mp mem
    rfl

theorem null_rows_keep_tables (table column : String) (nullable : Bool)
    (fillWith : Option String) (deleteNullRows : Bool) :
    ∀ q ∈ nullRows .sqlite table column nullable fillWith deleteNullRows, q.keepsTables := by
  unfold nullRows
  split
  · simp
  · split
    · simp [BuiltQuery.keepsTables]
    · intro q mem
      obtain ⟨value, _, rfl⟩ := List.mem_map.mp mem
      rfl

theorem created_no_rebuild (table : String) (columns : List ColumnDef)
    (constraints : List TableConstraint) :
    ¬ Rebuilds (createTableQueries .sqlite table columns constraints) := by
  intro rebuilds
  obtain ⟨stmt, new, _, renamed⟩ := rebuilds
  have no_type : ∀ cols created, .renameTable stmt.table new ∉ createEnumTypes table created cols := by
    intro cols
    induction cols with
    | nil => simp [createEnumTypes]
    | cons column rest ih =>
      intro created mem
      unfold createEnumTypes at mem
      split at mem
      · split at mem
        · exact ih created mem
        · split at mem
          · rcases List.mem_cons.mp mem with head | tail
            · cases head
            · exact ih _ tail
          · exact ih _ mem
      · exact ih created mem
  have unindexed : .renameTable stmt.table new ∉ constraints.flatMap (uniqueIndexes table) ++
      constraints.flatMap (plainIndexes table) := by
    intro mem
    rcases List.mem_append.mp mem with unique | plain
    · obtain ⟨c, _, here⟩ := List.mem_flatMap.mp unique
      cases c <;> simp [uniqueIndexes] at here
    · obtain ⟨c, _, here⟩ := List.mem_flatMap.mp plain
      cases c <;> simp [plainIndexes] at here
  simp only [createTableQueries, ↓reduceIte, buildCreateWithChecks, reduceCtorEq, List.append_assoc,
    List.mem_append, List.mem_singleton, false_or] at renamed unindexed
  rcases renamed with type | index
  · exact no_type columns [] type
  · exact unindexed index

section Built
variable {schema : List TableDef} {pending : List TableConstraint} {queries : List BuiltQuery}
  {table : String} {t : TableDef} (here : tableAt schema table = some t)
include here

theorem require_table (context : String) : requireTableInSchema schema table context = .ok t := by
  unfold requireTableInSchema
  rw [show schema.find? (·.name = table) = some t from here]

theorem add_column_rebuild {column : ColumnDef} {fillWith : Option String}
    (built : buildAddColumn .sqlite table schema pending column fillWith = .ok queries)
    (rebuilt : Rebuilds queries) :
    IsRebuild table (t.columns ++ [column]) t.constraints queries := by
  unfold buildAddColumn at built
  rw [require_table here] at built
  split at built
  · obtain rfl := Except.ok.inj built
    refine ⟨[], _, _, rfl, by simp, ?_, ?_⟩
    · rfl
    · exact indexes_keep_tables table t.constraints pending
  · refine absurd rebuilt (no_table_created ?_)
    obtain rfl := Except.ok.inj built
    intro q mem stmt same
    subst same
    simp only [List.mem_append, List.mem_map, reduceCtorEq, and_false, exists_false,
      false_or] at mem
    split at mem <;> simp at mem

theorem modify_rebuild {column context : String} {f : ColumnDef → ColumnDef}
    (before after : List BuiltQuery) (rows_before : ∀ q ∈ before, q.keepsTables)
    (rows_after : ∀ q ∈ after, q.keepsTables)
    (built : ((buildSqliteModifyColumnWith table column schema pending context f).map
      fun rebuild => before ++ rebuild ++ after) = .ok queries) :
    IsRebuild table (mapFirstColumn column f t.columns) t.constraints queries := by
  rw [buildSqliteModifyColumnWith, require_table here] at built
  obtain rfl := Except.ok.inj built
  exact table_rebuild before table _ _ _ _ pending after rows_before rows_after

theorem modify_type_rebuild {column : String} {newType : ColumnType}
    {fillWith : Option (List (String × String))} {narrowing : Option NarrowingStrategy}
    {timezone : Option String}
    (built : buildWithNarrowingPreprocess .sqlite table column schema pending newType fillWith
      narrowing timezone = .ok queries) :
    IsRebuild table (mapFirstColumn column (fun c => { c with type := newType }) t.columns)
      t.constraints queries := by
  have rows_ok : ∃ rows rebuild, queries = rows ++ rebuild ∧ (∀ q ∈ rows, q.keepsTables) ∧
      buildModifyColumnType .sqlite table column schema pending newType fillWith = .ok rebuild := by
    unfold buildWithNarrowingPreprocess at built
    have retyped : ∀ rows : List BuiltQuery, (do
        let queries ← buildModifyColumnTypeWithTimezone .sqlite table column schema pending newType
          fillWith timezone
        return rows ++ queries) = Except.ok queries →
        ∃ rebuild, queries = rows ++ rebuild ∧
          buildModifyColumnType .sqlite table column schema pending newType fillWith =
            .ok rebuild := by
      intro rows ok
      have ignored : buildModifyColumnTypeWithTimezone .sqlite table column schema pending newType
          fillWith timezone =
          buildModifyColumnType .sqlite table column schema pending newType fillWith := by
        cases timezone <;> rfl
      rw [ignored] at ok
      cases modified : buildModifyColumnType .sqlite table column schema pending newType fillWith with
      | error e => rw [modified] at ok; cases ok
      | ok rebuild =>
        rw [modified] at ok
        exact ⟨rebuild, (Except.ok.inj ok).symm, rfl⟩
    cases narrowing with
    | none =>
      obtain ⟨rebuild, split, modified⟩ := retyped [] built
      exact ⟨[], rebuild, split, by simp, modified⟩
    | some strategy =>
      cases narrowed : buildNarrowingPreprocess .sqlite table column newType strategy schema with
      | error e => simp only [narrowed] at built; cases built
      | ok rows =>
        simp only [narrowed] at built
        obtain ⟨rebuild, split, modified⟩ := retyped rows built
        exact ⟨rows, rebuild, split, row_statements narrowed, modified⟩
  obtain ⟨rows, rebuild, split, keep, modified⟩ := rows_ok
  simp only [buildModifyColumnType, buildModifyColumnTypeSqliteTempTable, require_table here,
    ↓reduceIte] at modified
  split at modified
  · have whole : queries = (rows ++ fillWithUpdates table column fillWith) ++
        buildSqliteTableRebuild table
          (mapFirstColumn column (fun c => { c with type := newType }) t.columns) t.constraints
          (mapFirstColumn column (fun c => { c with type := newType }) t.columns) t.constraints
          pending ++ [] := by
      rw [split, ← Except.ok.inj modified, List.append_nil, List.append_assoc]
    rw [whole]
    apply table_rebuild
    · exact List.forall_mem_append.mpr ⟨keep, fills_keep_tables table column fillWith⟩
    · simp
  · cases modified

omit here in
theorem type_drop_keeps (type : Option ColumnType) :
    ∀ q ∈ type.toList.flatMap (buildDropEnumTypeSql table), q.keepsTables := by
  intro q mem
  obtain ⟨ty, _, dropped⟩ := List.mem_flatMap.mp mem
  unfold buildDropEnumTypeSql at dropped
  split at dropped
  · rw [List.mem_singleton.mp dropped]
    rfl
  · simp at dropped

omit here in
theorem handled_keep_tables {column : String} {constraints : List TableConstraint}
    {ahead : List BuiltQuery} (handled : handleConstraints table column constraints = some ahead) :
    ∀ q ∈ ahead, q.keepsTables := by
  induction constraints generalizing ahead with
  | nil =>
    obtain rfl := Option.some.inj handled
    simp
  | cons c rest ih =>
    unfold handleConstraints at handled
    split at handled
    · cases handled
    · rename_i first own
      obtain ⟨later, rest_handled, rfl⟩ := Option.map_eq_some_iff.mp handled
      refine List.forall_mem_append.mpr ⟨?_, ih rest_handled⟩
      cases c <;> simp only [constraintHandling] at own <;> split at own <;>
        simp only [Option.some.injEq, reduceCtorEq] at own <;>
        simp [← own, BuiltQuery.keepsTables]

theorem delete_column_rebuild {column : String} {type : Option ColumnType}
    (rebuilt : Rebuilds (buildDeleteColumn .sqlite table column schema pending type)) :
    IsRebuild table (t.columns.filter (·.name ≠ column))
      (t.constraints.filter (keptWithoutColumn column))
      (buildDeleteColumn .sqlite table column schema pending type) := by
  have direct_stays : ∀ ahead : List BuiltQuery, (∀ q ∈ ahead, q.keepsTables) →
      ¬ Rebuilds (ahead ++ buildDirectDeleteColumn table column type) := by
    intro ahead keep
    apply no_table_created
    intro q mem stmt same
    subst same
    rcases List.mem_append.mp mem with first | last
    · cases keep _ first
    · rcases List.mem_cons.mp last with drop | type_drop
      · cases drop
      · cases type_drop_keeps type _ type_drop
  have found : schema.find? (·.name = table) = some t := here
  unfold buildDeleteColumn at rebuilt ⊢
  simp only [found] at rebuilt ⊢
  cases handled : sqliteConstraintHandling table column t with
  | none =>
    exact table_rebuild [] table (t.columns.filter (·.name ≠ column))
      (t.columns.filter (·.name ≠ column)) (t.constraints.filter (keptWithoutColumn column))
      (t.constraints.filter (keptWithoutColumn column)) pending _ (by simp) (type_drop_keeps type)
  | some ahead =>
    rw [handled] at rebuilt
    refine absurd rebuilt (direct_stays ahead ?_)
    unfold sqliteConstraintHandling at handled
    split at handled
    · split at handled
      · cases handled
      · exact handled_keep_tables handled
    · exact handled_keep_tables handled

theorem add_constraint_rebuild {constraint : TableConstraint}
    (built : buildAddConstraint .sqlite table schema pending constraint = .ok queries)
    (rebuilt : Rebuilds queries) :
    IsRebuild table t.columns (mergeConstraint t.constraints constraint) queries := by
  have added : rebuildSqliteTableWithAddedConstraint table schema pending constraint =
      .ok (buildSqliteTableRebuild table t.columns (mergeConstraint t.constraints constraint)
        t.columns t.constraints pending) := by
    rw [rebuildSqliteTableWithAddedConstraint, require_table here]
    rfl
  have shape : ∀ before : List BuiltQuery, (∀ q ∈ before, q.keepsTables) →
      queries = before ++ buildSqliteTableRebuild table t.columns
        (mergeConstraint t.constraints constraint) t.columns t.constraints pending →
      IsRebuild table t.columns (mergeConstraint t.constraints constraint) queries := by
    intro before keep whole
    rw [whole, ← List.append_nil (before ++ _)]
    exact table_rebuild before table _ _ _ _ pending [] keep (by simp)
  have cleanup : ∀ statements : List (SqlRows.Statement String),
      ∀ q ∈ statements.map BuiltQuery.cleanup, q.keepsTables := by
    intro statements q mem
    obtain ⟨stmt, _, rfl⟩ := List.mem_map.mp mem
    rfl
  have indexed : ∀ (before : List BuiltQuery) (stmt : IndexCreateStatement),
      (∀ q ∈ before, q.keepsTables) → ¬ Rebuilds (before ++ [BuiltQuery.createIndex stmt]) := by
    intro before stmt keep
    apply no_table_created
    intro q mem created same
    subst same
    rcases List.mem_append.mp mem with first | last
    · cases keep _ first
    · cases List.mem_singleton.mp last
  cases constraint with
  | primaryKey autoIncrement columns strategy =>
    simp only [buildAddConstraint, buildPrimaryKey, ↓reduceIte, added] at built
    exact shape _ (cleanup _) (Except.ok.inj built).symm
  | unique name columns strategy =>
    obtain rfl := Except.ok.inj built
    exact absurd rebuilt (indexed _ _ (cleanup _))
  | foreignKey name columns refTable refColumns onDelete onUpdate strategy =>
    simp only [buildAddConstraint, buildForeignKey, added] at built
    split at built
    · cases built
    · exact shape _ (cleanup _) (Except.ok.inj built).symm
  | check name expr strategy =>
    simp only [buildAddConstraint, buildCheck, added] at built
    refine shape _ ?_ (Except.ok.inj built).symm
    cases strategy <;> simp [buildCheckViolationCleanup, BuiltQuery.keepsTables]
  | index name columns =>
    obtain rfl := Except.ok.inj built
    exact absurd rebuilt (indexed [] _ (by simp))

theorem remove_constraint_rebuild {constraint : TableConstraint}
    (built : buildRemoveConstraint .sqlite table schema pending constraint = .ok queries)
    (rebuilt : Rebuilds queries) : (∀ name columns, constraint ≠ .index name columns) ∧
    IsRebuild table t.columns (t.constraints.filter (!sameConstraint · constraint)) queries := by
  have removed : ∀ (_ : sqliteRemoveConstraint table schema pending constraint = .ok queries),
      IsRebuild table t.columns (t.constraints.filter (!sameConstraint · constraint)) queries := by
    intro ok
    rw [sqliteRemoveConstraint, require_table here] at ok
    obtain rfl := Except.ok.inj ok
    have shape := table_rebuild [] table t.columns t.columns
      (t.constraints.filter (!sameConstraint · constraint))
      (if constraint.isUnique then t.constraints.filter (!sameConstraint · constraint)
        else t.constraints) pending [] (by simp) (by simp)
    rw [List.nil_append, List.append_nil] at shape
    exact shape
  cases constraint with
  | index name columns =>
    obtain rfl := Except.ok.inj built
    refine absurd rebuilt (no_table_created ?_)
    simp
  | _ => exact ⟨by simp, removed built⟩

theorem replace_constraint_rebuild {old new : TableConstraint}
    (built : buildReplaceConstraint .sqlite table schema pending old new = .ok queries) :
    IsRebuild table t.columns (t.constraints.map fun c => if c = old then new else c) queries := by
  have lite : buildReplaceConstraint .sqlite table schema pending old new =
      buildSqliteConstraintReplace table schema pending old new := by
    cases old <;> cases new <;> rfl
  rw [lite, buildSqliteConstraintReplace, require_table here] at built
  obtain rfl := Except.ok.inj built
  have shape := table_rebuild [] table t.columns t.columns
    (t.constraints.map fun c => if c = old then new else c) t.constraints pending [] (by simp)
    (by simp)
  rw [List.nil_append, List.append_nil] at shape
  exact shape

end Built

def mayRebuild : MigrationAction → Bool
  | .addColumn _ _ _ | .deleteColumn _ _ | .modifyColumnType _ _ _ _ _ _
  | .modifyColumnNullable _ _ _ _ _ | .modifyColumnDefault _ _ _ _ | .addConstraint _ _
  | .replaceConstraint _ _ _ => true
  | .removeConstraint _ (.index _ _) => false
  | .removeConstraint _ _ => true
  | _ => false

theorem built_rebuild {schema : List TableDef} {pending : List TableConstraint}
    {queries : List BuiltQuery} {a : MigrationAction} {t : TableDef}
    (here : tableAt schema (actionTable a) = some t)
    (built : buildActionQueriesWithPending .sqlite a schema pending = .ok queries)
    (rebuilt : Rebuilds queries) : mayRebuild a = true ∧
    IsRebuild (actionTable a) (rebuiltColumns t a) (rebuiltConstraints t a) queries := by
  have nothing : ∀ {q : BuiltQuery}, queries = [q] → (∀ stmt, q ≠ .createTable stmt) → False := by
    intro q same other
    refine no_table_created ?_ rebuilt
    simpa [same] using other
  cases a with
  | createTable table columns constraints =>
    simp only [buildActionQueriesWithPending, buildCreateTable] at built
    split at built
    · cases built
    · obtain rfl := Except.ok.inj built
      exact absurd rebuilt (created_no_rebuild table _ _)
  | deleteTable table => exact (nothing (Except.ok.inj built).symm (by simp)).elim
  | addColumn table column fillWith => exact ⟨rfl, add_column_rebuild here built rebuilt⟩
  | renameColumn table old new => exact (nothing (Except.ok.inj built).symm (by simp)).elim
  | deleteColumn table column =>
    obtain rfl := Except.ok.inj built
    exact ⟨rfl, delete_column_rebuild here rebuilt⟩
  | modifyColumnType table column newType fillWith narrowing timezone =>
    exact ⟨rfl, modify_type_rebuild here built⟩
  | modifyColumnNullable table column nullable fillWith deleteNullRows =>
    have rows := null_rows_keep_tables table column nullable fillWith (deleteNullRows.getD false)
    have whole : ((buildSqliteModifyColumnWith table column schema pending
        "SQLite requires current schema information to modify column nullability"
        fun c => { c with nullable }).map fun rebuild => nullRows .sqlite table column nullable
          fillWith (deleteNullRows.getD false) ++ rebuild ++ []) = .ok queries := by
      simp only [List.append_nil]
      exact built
    exact ⟨rfl, modify_rebuild here _ [] rows (by simp) whole⟩
  | modifyColumnDefault table column newDefault backfill =>
    have rows : ∀ q ∈ backfill.toList.map fun value => BuiltQuery.changeRows table ("UPDATE " ++
        quoteIdent table .sqlite ++ " SET " ++ quoteIdent column .sqlite ++ " = " ++ value),
        q.keepsTables := by
      intro q mem
      obtain ⟨value, _, rfl⟩ := List.mem_map.mp mem
      rfl
    exact ⟨rfl, modify_rebuild here [] _ (by simp) rows built⟩
  | modifyColumnComment table column newComment =>
    obtain rfl := Except.ok.inj built
    exact absurd rebuilt (no_table_created (by simp))
  | addConstraint table constraint => exact ⟨rfl, add_constraint_rebuild here built rebuilt⟩
  | removeConstraint table constraint =>
    obtain ⟨other, shape⟩ := remove_constraint_rebuild here built rebuilt
    refine ⟨?_, shape⟩
    cases constraint <;> simp [mayRebuild] at other ⊢
  | replaceConstraint table old new => exact ⟨rfl, replace_constraint_rebuild here built⟩
  | remapEnumValues table column mapping =>
    obtain rfl := Except.ok.inj built
    refine absurd rebuilt (no_table_created ?_)
    unfold buildRemapEnumValues
    split <;> simp
  | renameTable old new => exact (nothing (Except.ok.inj built).symm (by simp)).elim
  | rawSql sql => exact (nothing (Except.ok.inj built).symm (by simp)).elim
  | dataMigration sql description =>
    obtain rfl := Except.ok.inj built
    refine absurd rebuilt (no_table_created ?_)
    cases sql <;> simp [buildDataMigration]

/-! The run of a rebuild -/

theorem keeping_runs {db : TableCatalog} {q : BuiltQuery} (keeps : q.keepsTables) :
    runOnTables db q = some db := by
  cases q <;> simp_all [BuiltQuery.keepsTables, runOnTables]

def rebuiltStatement (table : String) (columns : List ColumnDef)
    (constraints : List TableConstraint) : TableCreateStatement :=
  { buildCreateTableForBackend .sqlite (table ++ "_temp") columns constraints with
    checks := collectAllCheckClauses table columns constraints }

theorem temporary_apart (table : String) : table ≠ table ++ "_temp" := by
  intro same
  have lengths := congrArg String.length same
  rw [String.length_append] at lengths
  simp at lengths

section Run
variable {table : String} {columns : List ColumnDef} {constraints : List TableConstraint}
  {queries : List BuiltQuery} (shape : IsRebuild table columns constraints queries)
include shape

theorem rebuild_run (db : TableCatalog) : runSteps runOnTables db queries =
    ((create db (table ++ "_temp") (rebuiltStatement table columns constraints)).bind fun s =>
      (drop s table).bind fun s => rename s (table ++ "_temp") table).map
        fun db name => (db name).map (·.retarget (table ++ "_temp") table) := by
  obtain ⟨before, copy, after, rfl, rows_before, copies, rows_after⟩ := shape
  rw [run_steps_append, run_steps_append,
    run_steps_idle fun q mem => keeping_runs (rows_before q mem), Option.bind_some]
  have settled : ∀ s, runSteps runOnTables s after = some s := fun s =>
    run_steps_idle fun q mem => keeping_runs (rows_after q mem)
  simp only [settled, Option.bind_fun_some, runSteps, Option.bind_some, keeping_runs copies]
  have created : buildSqliteTempTableCreate (table ++ "_temp") table columns constraints =
      .createTable (rebuiltStatement table columns constraints) := by
    simp [buildSqliteTempTableCreate, buildCreateWithChecks, rebuiltStatement,
      buildCreateTableForBackend]
  rw [created]
  have named : (rebuiltStatement table columns constraints).table = table ++ "_temp" := rfl
  simp only [runOnTables, named, Option.map_bind]
  congr 1
  funext s
  rw [Function.comp_apply, Option.map_bind]
  rfl

theorem rebuild_runs (db : TableCatalog) (taken : (db table).isSome)
    (free : db (table ++ "_temp") = none) : (runSteps runOnTables db queries).isSome := by
  obtain ⟨old, here⟩ := Option.isSome_iff_exists.mp taken
  rw [rebuild_run shape, replace_by_way (temporary_apart table) here free]
  rfl

theorem rebuild_leaves {db db' : TableCatalog} (ran : runSteps runOnTables db queries = some db') :
    db' table = some ((rebuiltStatement table columns constraints).retarget (table ++ "_temp")
      table) := by
  rw [rebuild_run shape] at ran
  obtain ⟨renamed, steps, rfl⟩ := Option.map_eq_some_iff.mp ran
  obtain ⟨created, first, rest⟩ := Option.bind_eq_some_iff.mp steps
  obtain ⟨dropped, second, third⟩ := Option.bind_eq_some_iff.mp rest
  have free : db (table ++ "_temp") = none := by
    by_contra taken
    rw [create, if_neg taken] at first
    cases first
  have there : ∃ old, db table = some old := by
    rw [create_free free] at first
    obtain rfl := Option.some.inj first
    unfold drop at second
    split at second
    · cases second
    · rename_i taken
      rw [Function.update_of_ne (temporary_apart table)] at taken
      exact Option.ne_none_iff_exists'.mp taken
  obtain ⟨old, taken⟩ := there
  rw [replace_by_way (temporary_apart table) taken free] at steps
  obtain rfl := Option.some.inj steps
  simp

end Run

end Vespertide
