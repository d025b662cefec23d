import Vespertide.Normalize
import Vespertide.Query

/-!
Creation of a table. A constraint is emitted by one of three channels: a flag
of a column, a clause of the table, or an index statement of its own.
-/
namespace Vespertide

/-! Columns -/

def buildSeaColumnDef (column : ColumnDef) : SeaColumnDef :=
  { name := column.name
    type := column.type
    notNull := !column.nullable
    default := column.default
    primaryKey := false
    autoIncrement := false }

def collectAutoIncrementColumns (constraints : List TableConstraint) : List String :=
  constraints.flatMap fun c =>
    match c with
    | .primaryKey true columns _ => columns
    | _ => []

/-- On SQLite an auto-increment column carries the key itself. -/
def createTableColumn (backend : DatabaseBackend) (constraints : List TableConstraint)
    (column : ColumnDef) : SeaColumnDef :=
  let col := buildSeaColumnDef column
  let inline := column.primaryKey.isSome && !hasPrimaryKeyConstraint constraints
  let auto := decide (column.name ∈ collectAutoIncrementColumns constraints) &&
    column.type.supportsAutoIncrement
  { col with
    primaryKey := inline || (auto && decide (backend = .sqlite))
    autoIncrement := auto }

/-! Clauses -/

def shouldSkipSqliteAutoIncrementPk (backend : DatabaseBackend) (columns : List ColumnDef)
    (pkCols : List String) (autoIncrement : Bool) : Bool :=
  backend = .sqlite ∧ autoIncrement ∧
    ∀ colName ∈ pkCols, ∃ c ∈ columns, c.name = colName ∧ c.type.supportsAutoIncrement

def primaryKeyClause (backend : DatabaseBackend) (columns : List ColumnDef) (pkCols : List String)
    (autoIncrement : Bool) : List IndexCreateStatement :=
  if shouldSkipSqliteAutoIncrementPk backend columns pkCols autoIncrement then []
  else [⟨none, none, pkCols, false, true⟩]

def mysqlUniqueClause (backend : DatabaseBackend) (table : String) (uniqueCols : List String)
    (name : Option String) : List IndexCreateStatement :=
  if backend ≠ .mySql then []
  else [⟨some (buildUniqueConstraintName table uniqueCols name), none, uniqueCols, true, false⟩]

/-- Checks and indexes contribute nothing to the table statement. -/
def constraintIndexes (backend : DatabaseBackend) (table : String) (columns : List ColumnDef) :
    TableConstraint → List IndexCreateStatement
  | .primaryKey autoIncrement pkCols _ => primaryKeyClause backend columns pkCols autoIncrement
  | .unique name uniqueCols _ => mysqlUniqueClause backend table uniqueCols name
  | .foreignKey _ _ _ _ _ _ _ => []
  | .check _ _ _ => []
  | .index _ _ => []

def constraintForeignKeys (table : String) : TableConstraint → List ForeignKeyCreateStatement
  | .foreignKey name fkCols refTable refColumns onDelete onUpdate _ =>
      [⟨buildForeignKeyName table fkCols name, table, fkCols, refTable, refColumns, onDelete,
        onUpdate⟩]
  | _ => []

def buildCreateTableForBackend (backend : DatabaseBackend) (table : String)
    (columns : List ColumnDef) (constraints : List TableConstraint) : TableCreateStatement :=
  { table
    columns := columns.map (createTableColumn backend constraints)
    indexes := constraints.flatMap (constraintIndexes backend table columns)
    foreignKeys := constraints.flatMap (constraintForeignKeys table)
    checks := [] }

/-! Enum columns -/

def buildSqliteEnumCheckClause (table : String) (column : ColumnDef) : Option CheckClause :=
  match column.type with
  | .complex (.enum _ values) =>
      some ⟨buildCheckConstraintName table column.name,
        quoteIdent column.name .sqlite ++ " IN (" ++ values.sqlValuesJoined ", " ++ ")"⟩
  | _ => none

def collectSqliteEnumCheckClauses (table : String) (columns : List ColumnDef) : List CheckClause :=
  columns.filterMap (buildSqliteEnumCheckClause table)

def buildCreateEnumTypeSql (table : String) : ColumnType → Option String
  | .complex (.enum name values) =>
      if values.isInteger then none
      else some ("CREATE TYPE " ++ quoteIdent (buildEnumTypeName table name) .postgres ++
        " AS ENUM (" ++ values.sqlValuesJoined ", " ++ ")")
  | _ => none

/-- One type for each enum name, the first column of the name deciding. -/
def createEnumTypes (table : String) : List String → List ColumnDef → List BuiltQuery
  | _, [] => []
  | created, column :: rest =>
      match column.type with
      | .complex (.enum name _) =>
          if name ∈ created then createEnumTypes table created rest
          else
            match buildCreateEnumTypeSql table column.type with
            | some sql => .createEnumType sql :: createEnumTypes table (name :: created) rest
            | none => createEnumTypes table (name :: created) rest
      | _ => createEnumTypes table created rest

/-- The clauses are spliced in before the closing bracket of the statement. -/
def buildCreateWithChecks (stmt : TableCreateStatement) (checkClauses : List CheckClause) :
    BuiltQuery := .createTable { stmt with checks := stmt.checks ++ checkClauses }

/-! The statements of a new table -/

def TableConstraint.isUnique : TableConstraint → Bool
  | .unique _ _ _ => true
  | _ => false

def uniqueIndexes (table : String) : TableConstraint → List BuiltQuery
  | .unique name columns _ =>
      [.createIndex ⟨some (buildUniqueConstraintName table columns name), some table, columns,
        true, false⟩]
  | _ => []

def plainIndexes (table : String) : TableConstraint → List BuiltQuery
  | .index name columns =>
      [.createIndex ⟨some (buildIndexName table columns name), some table, columns, false, false⟩]
  | _ => []

def createTableQueries (backend : DatabaseBackend) (table : String) (columns : List ColumnDef)
    (constraints : List TableConstraint) : List BuiltQuery :=
  let hasUniqueConstraints := constraints.any (·.isUnique)
  let stmt :=
    if backend = .mySql ∨ ¬ hasUniqueConstraints then
      buildCreateTableForBackend backend table columns constraints
    else
      buildCreateTableForBackend backend table columns (constraints.filter (!·.isUnique))
  let create :=
    if backend = .sqlite then
      buildCreateWithChecks stmt (collectSqliteEnumCheckClauses table columns)
    else .createTable stmt
  createEnumTypes table [] columns ++ [create] ++
    (if backend = .mySql then [] else constraints.flatMap (uniqueIndexes table)) ++
    constraints.flatMap (plainIndexes table)

def buildCreateTable (backend : DatabaseBackend) (table : String) (columns : List ColumnDef)
    (constraints : List TableConstraint) : Except QueryError (List BuiltQuery) :=
  match (TableDef.mk table none columns constraints).normalize with
  | .error e =>
      .error (.schemaError s!"Failed to normalize table '{table}': {e.toString}")
  | .ok normalized =>
      .ok (createTableQueries backend table normalized.columns normalized.constraints)

end Vespertide
