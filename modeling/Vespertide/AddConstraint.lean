import Vespertide.Apply
import Vespertide.CreateTable
import Vespertide.DuplicateCleanup
import Vespertide.OrphanCleanup

/-!
The statements of a constraint that is added, removed or replaced. SQLite
rebuilds the table; the other backends alter it. An addition is preceded by the
cleanup of the rows that would refuse it.
-/
namespace Vespertide
open SqlRows

/-! The rebuild of a SQLite table -/

def requireTableInSchema (schema : List TableDef) (table context : String) :
    Except QueryError TableDef :=
  match schema.find? (·.name = table) with
  | some t => .ok t
  | none => .error (.schemaError s!"Table '{table}' not found in current schema. {context}.")

def extractCheckClauses (constraints : List TableConstraint) : List CheckClause :=
  constraints.filterMap fun c =>
    match c with
    | .check name expr _ => some ⟨name, expr⟩
    | _ => none

def collectAllCheckClauses (table : String) (columns : List ColumnDef)
    (constraints : List TableConstraint) : List CheckClause :=
  (extractCheckClauses constraints).foldl
    (fun clauses clause => if clause ∈ clauses then clauses else clauses ++ [clause])
    (collectSqliteEnumCheckClauses table columns)

def buildSqliteTempTableCreate (tempTable table : String) (columns : List ColumnDef)
    (constraints : List TableConstraint) : BuiltQuery :=
  buildCreateWithChecks (buildCreateTableForBackend .sqlite tempTable columns constraints)
    (collectAllCheckClauses table columns constraints)

def recreateIndexesAfterRebuild (table : String)
    (constraints pendingConstraints : List TableConstraint) : List BuiltQuery :=
  constraints.flatMap fun c =>
    if c ∈ pendingConstraints then [] else plainIndexes table c ++ uniqueIndexes table c

def buildSqliteTableRebuild (table : String) (createColumns : List ColumnDef)
    (createConstraints : List TableConstraint) (copyColumns : List ColumnDef)
    (recreateConstraints pendingConstraints : List TableConstraint) : List BuiltQuery :=
  let tempTable := table ++ "_temp"
  [buildSqliteTempTableCreate tempTable table createColumns createConstraints,
    .copyRows tempTable table (copyColumns.map (·.name)),
    .dropTable table,
    .renameTable tempTable table] ++
    recreateIndexesAfterRebuild table recreateConstraints pendingConstraints

def constraintsOverlap : TableConstraint → TableConstraint → Bool
  | .foreignKey _ a _ _ _ _ _, .foreignKey _ b _ _ _ _ _ => a = b
  | .primaryKey _ a _, .primaryKey _ b _ => a = b
  | .check aName aExpr _, .check bName bExpr _ => aName = bName ∧ aExpr = bExpr
  | _, _ => false

/-- The first overlapping constraint gives its place, the later ones go. -/
def mergeConstraint (existing : List TableConstraint) (constraint : TableConstraint) :
    List TableConstraint :=
  if existing.any (constraintsOverlap · constraint) then
    existing.takeWhile (!constraintsOverlap · constraint) ++ [constraint] ++
      (existing.dropWhile (!constraintsOverlap · constraint)).filter
        (!constraintsOverlap · constraint)
  else existing ++ [constraint]

section Builders
variable (backend : DatabaseBackend) (table : String) (currentSchema : List TableDef)
  (pendingConstraints : List TableConstraint)

def rebuildSqliteTableWithAddedConstraint (constraint : TableConstraint) :
    Except QueryError (List BuiltQuery) :=
  (requireTableInSchema currentSchema table
    "SQLite requires current schema information to add constraints").map fun t =>
      buildSqliteTableRebuild table t.columns (mergeConstraint t.constraints constraint) t.columns
        t.constraints pendingConstraints

/-! Addition -/

def buildPkPreCleanup (newPkColumns : List String) (strategy : PrimaryKeyAdditionStrategy) :
    List (Statement String) :=
  let keep := match strategy with | .deleteDuplicates keep => keep
  match tryResolveSinglePkColumn table currentSchema newPkColumns with
  | none => []
  | some oldPkColumn => [deleteDuplicates table oldPkColumn newPkColumns keep]

def buildPrimaryKey (columns : List String) (strategy : PrimaryKeyAdditionStrategy)
    (constraint : TableConstraint) : Except QueryError (List BuiltQuery) :=
  let cleanup := (buildPkPreCleanup table currentSchema columns strategy).map BuiltQuery.cleanup
  if backend = .sqlite then
    (rebuildSqliteTableWithAddedConstraint table currentSchema pendingConstraints constraint).map
      (cleanup ++ ·)
  else
    .ok (cleanup ++ [.alter ("ALTER TABLE " ++ quoteIdent table backend ++ " ADD PRIMARY KEY (" ++
      quoteIdents columns backend ++ ")")])

def buildUnique (name : Option String) (columns : List String)
    (strategy : UniqueConstraintStrategy) : Except QueryError (List BuiltQuery) :=
  let cleanup := (buildPreCleanupDelete table columns strategy currentSchema).map BuiltQuery.cleanup
  .ok (cleanup ++ [.createIndex ⟨some (buildUniqueConstraintName table columns name), some table,
    columns, true, false⟩])

def ReferenceAction.toSqlKeyword : ReferenceAction → String
  | .cascade => "CASCADE"
  | .restrict => "RESTRICT"
  | .setNull => "SET NULL"
  | .setDefault => "SET DEFAULT"
  | .noAction => "NO ACTION"

def renderFkActionClause (clause : String) (action : Option ReferenceAction) : String :=
  match action with
  | none => ""
  | some a => " " ++ clause ++ " " ++ a.toSqlKeyword

def buildForeignKey (name : Option String) (columns : List String) (refTable : String)
    (refColumns : List String) (onDelete onUpdate : Option ReferenceAction)
    (orphanStrategy : ForeignKeyOrphanStrategy) (constraint : TableConstraint) :
    Except QueryError (List BuiltQuery) :=
  match buildFkOrphanCleanup table columns refTable refColumns orphanStrategy with
  | .error e => .error e
  | .ok statements =>
      let cleanup := statements.map BuiltQuery.cleanup
      let fkName := buildForeignKeyName table columns name
      match backend with
      | .sqlite =>
          (rebuildSqliteTableWithAddedConstraint table currentSchema pendingConstraints
            constraint).map (cleanup ++ ·)
      | .postgres =>
          let target := "ALTER TABLE " ++ quoteIdent table .postgres
          .ok (cleanup ++
            [.alter (target ++ " ADD CONSTRAINT " ++ quoteIdent fkName .postgres ++
              " FOREIGN KEY (" ++ quoteIdents columns .postgres ++ ") REFERENCES " ++
              quoteIdent refTable .postgres ++ " (" ++ quoteIdents refColumns .postgres ++ ")" ++
              renderFkActionClause "ON DELETE" onDelete ++
              renderFkActionClause "ON UPDATE" onUpdate ++ " NOT VALID"),
            .alter (target ++ " VALIDATE CONSTRAINT " ++ quoteIdent fkName .postgres)])
      | .mySql =>
          .ok (cleanup ++ [.createForeignKey
            ⟨fkName, table, columns, refTable, refColumns, onDelete, onUpdate⟩])

def buildCheckViolationCleanup (expr : String) : CheckViolationStrategy → BuiltQuery
  | .nullifyViolatingColumn column => .checkCleanup table (some column) expr
  | .deleteViolatingRows => .checkCleanup table none expr

def buildCheck (name expr : String) (strategy : CheckViolationStrategy)
    (constraint : TableConstraint) : Except QueryError (List BuiltQuery) :=
  let cleanup := [buildCheckViolationCleanup table expr strategy]
  let added := "ALTER TABLE " ++ quoteIdent table backend ++ " ADD CONSTRAINT " ++
    quoteIdent name backend ++ " CHECK (" ++ expr ++ ")"
  match backend with
  | .sqlite =>
      (rebuildSqliteTableWithAddedConstraint table currentSchema pendingConstraints
        constraint).map (cleanup ++ ·)
  | .postgres =>
      .ok (cleanup ++ [.alter (added ++ " NOT VALID"),
        .alter ("ALTER TABLE " ++ quoteIdent table backend ++ " VALIDATE CONSTRAINT " ++
          quoteIdent name backend)])
  | .mySql => .ok (cleanup ++ [.alter added])

def buildAddConstraint (constraint : TableConstraint) : Except QueryError (List BuiltQuery) :=
  match constraint with
  | .primaryKey _ columns strategy =>
      buildPrimaryKey backend table currentSchema pendingConstraints columns strategy constraint
  | .unique name columns strategy => buildUnique table currentSchema name columns strategy
  | .foreignKey name columns refTable refColumns onDelete onUpdate orphanStrategy =>
      buildForeignKey backend table currentSchema pendingConstraints name columns refTable
        refColumns onDelete onUpdate orphanStrategy constraint
  | .check name expr strategy =>
      buildCheck backend table currentSchema pendingConstraints name expr strategy constraint
  | .index name columns =>
      .ok [.createIndex ⟨some (buildIndexName table columns name), some table, columns, false,
        false⟩]

/-! Removal -/

def sameNamedOrColumnConstraint (candidateName : Option String) (candidateColumns : List String)
    (removedName : Option String) (removedColumns : List String) : Bool :=
  match candidateName, removedName with
  | some candidate, some removed => candidate = removed
  | _, _ => candidateColumns = removedColumns

def sameConstraint : TableConstraint → TableConstraint → Bool
  | .primaryKey _ _ _, .primaryKey _ _ _ => true
  | .unique name columns _, .unique removedName removedColumns _ =>
      sameNamedOrColumnConstraint name columns removedName removedColumns
  | .foreignKey name columns _ _ _ _ _, .foreignKey removedName removedColumns _ _ _ _ _ =>
      sameNamedOrColumnConstraint name columns removedName removedColumns
  | .check name _ _, .check removedName _ _ => name = removedName
  | _, _ => false

def sqliteRemoveConstraint (constraint : TableConstraint) : Except QueryError (List BuiltQuery) :=
  (requireTableInSchema currentSchema table
    "SQLite requires current schema information to remove constraints").map fun t =>
      let newConstraints := t.constraints.filter (!sameConstraint · constraint)
      let constraintsToRecreate := if constraint.isUnique then newConstraints else t.constraints
      buildSqliteTableRebuild table t.columns newConstraints t.columns constraintsToRecreate
        pendingConstraints

def postgresRemoveConstraint : TableConstraint → List BuiltQuery
  | .primaryKey _ _ _ =>
      [.alter ("ALTER TABLE " ++ quoteIdent table .postgres ++ " DROP CONSTRAINT " ++
        quoteIdent (table ++ "_pkey") .postgres)]
  | .unique name columns _ =>
      [.alter ("DROP INDEX " ++
        quoteIdent (buildUniqueConstraintName table columns name) .postgres)]
  | .foreignKey name columns _ _ _ _ _ =>
      [.dropForeignKey table (buildForeignKeyName table columns name)]
  | .index name columns => [.dropIndex table (buildIndexName table columns name)]
  | .check name _ _ =>
      [.alter ("ALTER TABLE " ++ quoteIdent table .postgres ++ " DROP CONSTRAINT " ++
        quoteIdent name .postgres)]

def mysqlRemoveConstraint (constraint : TableConstraint) : List BuiltQuery :=
  let target := "ALTER TABLE " ++ quoteIdent table .mySql
  match constraint with
  | .primaryKey _ _ _ => [.alter (target ++ " DROP PRIMARY KEY")]
  | .unique name columns _ =>
      [.alter (target ++ " DROP INDEX " ++
        quoteIdent (buildUniqueConstraintName table columns name) .mySql)]
  | .foreignKey name columns _ _ _ _ _ =>
      [.alter (target ++ " DROP FOREIGN KEY " ++
        quoteIdent (buildForeignKeyName table columns name) .mySql)]
  | .index name columns => [.dropIndex table (buildIndexName table columns name)]
  | .check name _ _ => [.alter (target ++ " DROP CHECK " ++ quoteIdent name .mySql)]

def buildRemoveConstraint (constraint : TableConstraint) : Except QueryError (List BuiltQuery) :=
  match backend, constraint with
  | .sqlite, .index name columns => .ok [.dropIndex table (buildIndexName table columns name)]
  | .sqlite, constraint =>
      sqliteRemoveConstraint table currentSchema pendingConstraints constraint
  | .postgres, constraint => .ok (postgresRemoveConstraint table constraint)
  | .mySql, constraint => .ok (mysqlRemoveConstraint table constraint)

/-! Replacement -/

def buildSqliteConstraintReplace (old new : TableConstraint) :
    Except QueryError (List BuiltQuery) :=
  (requireTableInSchema currentSchema table
    "SQLite requires current schema information to replace constraints").map fun t =>
      buildSqliteTableRebuild table t.columns
        (t.constraints.map fun c => if c = old then new else c) t.columns t.constraints
        pendingConstraints

def replacedSchema (old new : TableConstraint) : List TableDef :=
  currentSchema.map fun t =>
    if t.name = table then { t with constraints := t.constraints.filter (· ≠ old) ++ [new] } else t

def buildReplaceConstraint (old new : TableConstraint) : Except QueryError (List BuiltQuery) :=
  match backend, old, new with
  | .sqlite, old, new =>
      buildSqliteConstraintReplace table currentSchema pendingConstraints old new
  | _, .foreignKey oldName oldColumns _ _ _ _ _,
      .foreignKey newName newColumns refTable refColumns onDelete onUpdate _ =>
      .ok [.dropForeignKey table (buildForeignKeyName table oldColumns oldName),
        .createForeignKey ⟨buildForeignKeyName table newColumns newName, table, newColumns,
          refTable, refColumns, onDelete, onUpdate⟩]
  | backend, old, new =>
      match buildRemoveConstraint backend table currentSchema pendingConstraints old with
      | .error e => .error e
      | .ok removed =>
          (buildAddConstraint backend table (replacedSchema table currentSchema old new)
            pendingConstraints new).map (removed ++ ·)

end Builders

def buildConstraintActionQueries (backend : DatabaseBackend) (action : MigrationAction)
    (currentSchema : List TableDef) (pendingConstraints : List TableConstraint) :
    Except QueryError (List BuiltQuery) :=
  match action with
  | .addConstraint table constraint =>
      buildAddConstraint backend table currentSchema pendingConstraints constraint
  | .removeConstraint table constraint =>
      buildRemoveConstraint backend table currentSchema pendingConstraints constraint
  | .replaceConstraint table old new =>
      buildReplaceConstraint backend table currentSchema pendingConstraints old new
  | _ => .ok []

/-- Index and unique constraints that later actions add to the table of `action`. -/
def pendingConstraintsForAction (plan : MigrationPlan) (actionIndex : Nat)
    (action : MigrationAction) : List TableConstraint :=
  match action, action.tableName with
  | .renameTable _ _, _ => []
  | _, none => []
  | _, some table =>
      (plan.actions.drop (actionIndex + 1)).filterMap fun a =>
        match a with
        | .addConstraint t (.index name columns) =>
            if t = table then some (.index name columns) else none
        | .addConstraint t (.unique name columns strategy) =>
            if t = table then some (.unique name columns strategy) else none
        | _ => none

/-- The schema an action is built on: the errors of the earlier ones are ignored. -/
def evolvingSchema (plan : MigrationPlan) (baseline : List TableDef) (actionIndex : Nat) :
    List TableDef :=
  (plan.actions.take actionIndex).foldl (fun s a => (applyAction s a).state) baseline

end Vespertide
