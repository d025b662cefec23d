import Vespertide.AddConstraint
import Vespertide.Narrowing

/-!
The statements of one action against the schema it meets. A change of a column
alters the table, except on SQLite, where most changes rebuild it.
-/
namespace Vespertide

def findColumnInSchema (schema : List TableDef) (table column : String) : Option ColumnDef :=
  (schema.find? (·.name = table)).bind fun t => t.columns.find? (·.name = column)

def requireColumnInTable (t : TableDef) (column : String) : Except QueryError ColumnDef :=
  match t.columns.find? (·.name = column) with
  | some c => .ok c
  | none => .error (.schemaError s!"Column '{column}' not found in table '{t.name}'.")

/-! Values and defaults -/

def normalizeFillWith (fillWith : Option String) : Option String :=
  fillWith.map fun s => if s = "" then "''" else s

def ColumnType.isEnum : ColumnType → Bool
  | .complex (.enum _ _) => true
  | _ => false

def needsQuoting (defaultStr : String) : Bool :=
  let trimmed := Text.trim defaultStr.toList
  if trimmed = [] then true
  else if trimmed.head? = some '\'' ∨ trimmed.head? = some '"' then false
  else if '(' ∈ trimmed ∨ ')' ∈ trimmed then false
  else !(["null", "current_timestamp", "current_date", "current_time"].any
    (Text.eqIgnoreAsciiCase trimmed ·.toList))

def normalizeEnumDefault (type : ColumnType) (value : String) : String :=
  if type.isEnum ∧ needsQuoting value then "'" ++ value ++ "'" else value

def buildPgAlterColumnSql (table column suffix : String) : String :=
  "ALTER TABLE " ++ quoteIdent table .postgres ++ " ALTER COLUMN " ++
    quoteIdent column .postgres ++ " " ++ suffix

section Actions
variable (backend : DatabaseBackend) (table column : String) (currentSchema : List TableDef)
  (pendingConstraints : List TableConstraint)

/-! A change of one attribute -/

def buildMysqlModifyColumnWith (context : String) (mutator : ColumnDef → ColumnDef) :
    Except QueryError BuiltQuery := do
  let t ← requireTableInSchema currentSchema table context
  let c ← requireColumnInTable t column
  return .modifyColumn table (buildSeaColumnDef (mutator c)) none

def buildSqliteModifyColumnWith (context : String) (mutator : ColumnDef → ColumnDef) :
    Except QueryError (List BuiltQuery) :=
  (requireTableInSchema currentSchema table context).map fun t =>
    buildSqliteTableRebuild table (mapFirstColumn column mutator t.columns) t.constraints t.columns
      t.constraints pendingConstraints

def nullRows (nullable : Bool) (fillWith : Option String) (deleteNullRows : Bool) :
    List BuiltQuery :=
  if nullable then []
  else if deleteNullRows then
    [.changeRows table ("DELETE FROM " ++ quoteIdent table backend ++ " WHERE " ++
      quoteIdent column backend ++ " IS NULL")]
  else (normalizeFillWith fillWith).toList.map fun value => .fillColumn table column value true

def buildModifyColumnNullable (nullable : Bool) (fillWith : Option String)
    (deleteNullRows : Bool) : Except QueryError (List BuiltQuery) :=
  let rows := nullRows backend table column nullable fillWith deleteNullRows
  match backend with
  | .postgres =>
      .ok (rows ++ [.alter (buildPgAlterColumnSql table column
        (if nullable then "DROP NOT NULL" else "SET NOT NULL"))])
  | .mySql =>
      (buildMysqlModifyColumnWith table column currentSchema
        "MySQL requires current schema information to modify column nullability"
        fun c => { c with nullable }).map fun q => rows ++ [q]
  | .sqlite =>
      (buildSqliteModifyColumnWith table column currentSchema pendingConstraints
        "SQLite requires current schema information to modify column nullability"
        fun c => { c with nullable }).map (rows ++ ·)

def buildModifyColumnDefault (newDefault backfill : Option String) :
    Except QueryError (List BuiltQuery) :=
  let rows := backfill.toList.map fun value => BuiltQuery.changeRows table ("UPDATE " ++
    quoteIdent table backend ++ " SET " ++ quoteIdent column backend ++ " = " ++ value)
  match backend with
  | .postgres =>
      let suffix := match newDefault with
        | none => "DROP DEFAULT"
        | some value => "SET DEFAULT " ++
            match findColumnInSchema currentSchema table column with
            | some c => normalizeEnumDefault c.type value
            | none => value
      .ok (.alter (buildPgAlterColumnSql table column suffix) :: rows)
  | .mySql =>
      (buildMysqlModifyColumnWith table column currentSchema
        "MySQL requires current schema information to modify column defaults"
        fun c => { c with default := newDefault.map .string }).map fun q => q :: rows
  | .sqlite =>
      (buildSqliteModifyColumnWith table column currentSchema pendingConstraints
        "SQLite requires current schema information to modify column defaults"
        fun c => { c with default := newDefault.map .string }).map (· ++ rows)

/-- SQLite keeps no comments. -/
def buildModifyColumnComment (newComment : Option String) : Except QueryError (List BuiltQuery) :=
  match backend with
  | .postgres =>
      .ok [.alter ("COMMENT ON COLUMN " ++ quoteIdent table .postgres ++ "." ++
        quoteIdent column .postgres ++ " IS " ++ match newComment with
          | some comment => "'" ++ escapeSqlStringLiteral comment ++ "'"
          | none => "NULL")]
  | .mySql => do
      let t ← requireTableInSchema currentSchema table
        "MySQL requires current schema information to modify column comments"
      let c ← requireColumnInTable t column
      return [.modifyColumn table (buildSeaColumnDef c) newComment]
  | .sqlite => .ok []

/-! A change of type -/

/-- Exactly one outer layer of quotes, written by older migrations. -/
def stripLegacyOuterQuotes (replacement : String) : String :=
  match replacement.toList with
  | '\'' :: inner =>
      if inner.getLast? = some '\'' then String.ofList inner.dropLast else replacement
  | _ => replacement

def buildFillWithUpdates (fillWith : List (String × String)) : List BuiltQuery :=
  fillWith.map fun (removed, replacement) =>
    .replaceValue table column removed (stripLegacyOuterQuotes replacement)

def fillWithUpdates (fillWith : Option (List (String × String))) : List BuiltQuery :=
  (fillWith.map (buildFillWithUpdates table column)).getD []

def buildModifyColumnTypeSqliteTempTable (newType : ColumnType)
    (fillWith : Option (List (String × String))) : Except QueryError (List BuiltQuery) :=
  match requireTableInSchema currentSchema table
      "SQLite requires current schema information to modify column types" with
  | .error e => .error e
  | .ok t =>
      if column ∈ t.columnNames then
        let newColumns := mapFirstColumn column (fun c => { c with type := newType }) t.columns
        .ok (fillWithUpdates table column fillWith ++ buildSqliteTableRebuild table newColumns
          t.constraints newColumns t.constraints pendingConstraints)
      else .error (.schemaError s!"Column '{column}' not found in table '{table}'")

def needsPostgresEnumMigration (oldType : Option ColumnType) (newType : ColumnType) : Bool :=
  match backend, oldType, newType with
  | .postgres, some (.complex (.enum oldName oldValues)), .complex (.enum newName newValues) =>
      oldName ≠ newName ∨ oldValues ≠ newValues
  | _, _, _ => false

/-- Values of one name swap through a type of a temporary name. -/
def buildPostgresEnumMigration (oldName newName : String) (newValues : EnumValues)
    (fillWith : Option (List (String × String))) : List BuiltQuery :=
  let oldTypeName := buildEnumTypeName table oldName
  let needsRename := oldName = newName
  let targetTypeName :=
    if needsRename then oldTypeName ++ "_new" else buildEnumTypeName table newName
  let columnDefault := (findColumnInSchema currentSchema table column).bind (·.default)
  fillWithUpdates table column fillWith ++
    [.createEnumType ("CREATE TYPE " ++ quoteIdent targetTypeName .postgres ++ " AS ENUM (" ++
      newValues.sqlValuesJoined ", " ++ ")")] ++
    (if columnDefault.isSome then [.alter (buildPgAlterColumnSql table column "DROP DEFAULT")]
      else []) ++
    [.castColumn table column targetTypeName, .dropEnumType oldTypeName] ++
    (if needsRename then [.renameEnumType targetTypeName oldTypeName] else []) ++
    columnDefault.toList.map fun value => .alter (buildPgAlterColumnSql table column
      ("SET DEFAULT " ++ normalizeEnumDefault (.complex (.enum newName newValues)) value.toSql))

def createNewEnumTypeIfNeeded (oldType : Option ColumnType) (newType : ColumnType) :
    List BuiltQuery :=
  match newType, oldType with
  | .complex (.enum newName _), some (.complex (.enum oldName _)) =>
      if oldName ≠ newName then (buildCreateEnumTypeSql table newType).toList.map .createEnumType
      else []
  | .complex (.enum _ _), _ => (buildCreateEnumTypeSql table newType).toList.map .createEnumType
  | _, _ => []

def dropOldEnumTypeIfNeeded (oldType : Option ColumnType) (newType : ColumnType) :
    List BuiltQuery :=
  match oldType, newType with
  | some (.complex (.enum oldName _)), .complex (.enum newName _) =>
      if oldName ≠ newName then [.dropEnumType (buildEnumTypeName table oldName)] else []
  | some (.complex (.enum oldName _)), _ => [.dropEnumType (buildEnumTypeName table oldName)]
  | _, _ => []

/-- The definition the change is sent with: PostgreSQL is sent the type only. -/
def retypedColumn (newType : ColumnType) : SeaColumnDef :=
  let found := if backend = .mySql then findColumnInSchema currentSchema table column else none
  { name := column
    type := newType
    notNull := (found.map (!·.nullable)).getD false
    default := found.bind (·.default)
    primaryKey := false
    autoIncrement := false }

def buildModifyColumnTypeDirect (newType : ColumnType)
    (fillWith : Option (List (String × String))) : List BuiltQuery :=
  let oldType := (findColumnInSchema currentSchema table column).map (·.type)
  match needsPostgresEnumMigration backend oldType newType, oldType, newType with
  | true, some (.complex (.enum oldName _)), .complex (.enum newName newValues) =>
      buildPostgresEnumMigration table column currentSchema oldName newName newValues fillWith
  | _, _, _ =>
      fillWithUpdates table column fillWith ++ createNewEnumTypeIfNeeded table oldType newType ++
        [.modifyColumn table (retypedColumn backend table column currentSchema newType) none] ++
        dropOldEnumTypeIfNeeded table oldType newType

def buildModifyColumnType (newType : ColumnType) (fillWith : Option (List (String × String))) :
    Except QueryError (List BuiltQuery) :=
  if backend = .sqlite then
    buildModifyColumnTypeSqliteTempTable table column currentSchema pendingConstraints newType
      fillWith
  else .ok (buildModifyColumnTypeDirect backend table column currentSchema newType fillWith)

def buildPgAlterWithTimezone (newType : ColumnType) (tz : String) : Option BuiltQuery :=
  let qc := quoteIdent column .postgres
  let converted := qc ++ " AT TIME ZONE '" ++ escapeSqlStringLiteral tz ++ "'"
  match newType with
  | .simple .timestamptz =>
      some (.alter (buildPgAlterColumnSql table column ("TYPE timestamptz USING " ++ converted)))
  | .simple .timestamp =>
      some (.alter (buildPgAlterColumnSql table column
        ("TYPE timestamp USING (" ++ converted ++ ")::timestamp")))
  | _ => none

def buildModifyColumnTypeWithTimezone (newType : ColumnType)
    (fillWith : Option (List (String × String))) (timezone : Option String) :
    Except QueryError (List BuiltQuery) :=
  match timezone, backend with
  | some tz, .postgres =>
      match buildPgAlterWithTimezone table column newType tz with
      | some q => .ok [q]
      | none => .error (.timezoneMisplaced newType)
  | _, _ =>
      buildModifyColumnType backend table column currentSchema pendingConstraints newType fillWith

def buildWithNarrowingPreprocess (newType : ColumnType)
    (fillWith : Option (List (String × String))) (narrowingStrategy : Option NarrowingStrategy)
    (timezone : Option String) : Except QueryError (List BuiltQuery) := do
  let rows ← match narrowingStrategy with
    | some strategy =>
        buildNarrowingPreprocess backend table column newType strategy currentSchema
    | none => .ok []
  let queries ← buildModifyColumnTypeWithTimezone backend table column currentSchema
    pendingConstraints newType fillWith timezone
  return rows ++ queries

/-! An added column -/

/-- A rebuild on SQLite where the column is required or carries an enum check. -/
def buildAddColumn (added : ColumnDef) (fillWith : Option String) :
    Except QueryError (List BuiltQuery) :=
  if backend = .sqlite ∧ (!added.nullable ∨ added.type.isEnum) then
    (requireTableInSchema currentSchema table
      "SQLite requires current schema information to add columns").map fun t =>
        let tempTable := table ++ "_temp"
        let fill := match normalizeFillWith fillWith, added.default with
          | some value, _ => FillValue.fillWith value
          | none, some value => .default value
          | none, none => .null
        [buildSqliteTempTableCreate tempTable table (t.columns ++ [added]) t.constraints,
          .copyRowsFilling tempTable table t.columnNames added.name added.type fill,
          .dropTable table,
          .renameTable tempTable table] ++
          recreateIndexesAfterRebuild table t.constraints pendingConstraints
  else
    let create := (buildCreateEnumTypeSql table added.type).toList.map BuiltQuery.createEnumType
    let needsBackfill := !added.nullable ∧ added.default.isNone ∧ fillWith.isSome
    .ok (create ++
      if needsBackfill then
        [.addColumn table (buildSeaColumnDef { added with nullable := true })] ++
          ((normalizeFillWith fillWith).toList.map fun value =>
            .fillColumn table added.name value false) ++
          [.modifyColumn table (buildSeaColumnDef added) none]
      else [.addColumn table (buildSeaColumnDef added)])

/-! A dropped column -/

def buildDropEnumTypeSql (type : ColumnType) : List BuiltQuery :=
  match type with
  | .complex (.enum name _) => [.dropEnumType (buildEnumTypeName table name)]
  | _ => []

def buildDirectDeleteColumn (columnType : Option ColumnType) : List BuiltQuery :=
  .dropColumn table column :: columnType.toList.flatMap (buildDropEnumTypeSql table)

def mentionsColumn (expr : String) : Bool := Text.contains expr.toList column.toList

/-- The quoted name is looked for as well, in vain where the bare one is absent. -/
def keptWithoutColumn (c : TableConstraint) : Bool :=
  match c with
  | .check _ expr _ =>
      !mentionsColumn ("\"" ++ column ++ "\"") expr && !mentionsColumn column expr
  | c => decide (column ∉ c.columns)

def buildDeleteColumnSqliteTempTable (t : TableDef) (columnType : Option ColumnType) :
    List BuiltQuery :=
  let newColumns := t.columns.filter (·.name ≠ column)
  let newConstraints := t.constraints.filter (keptWithoutColumn column)
  buildSqliteTableRebuild table newColumns newConstraints newColumns newConstraints
    pendingConstraints ++ columnType.toList.flatMap (buildDropEnumTypeSql table)

/-- What a constraint asks for when the column goes: a rebuild, or statements
    ahead of the drop. -/
def constraintHandling (c : TableConstraint) : Option (List BuiltQuery) :=
  match c with
  | .check _ expr _ => if mentionsColumn column expr then none else some []
  | .foreignKey _ columns _ _ _ _ _ => if column ∈ columns then none else some []
  | .primaryKey _ columns _ => if column ∈ columns then none else some []
  | .unique name columns _ =>
      if column ∈ columns then
        some [.dropIndex table (buildUniqueConstraintName table columns name)]
      else some []
  | .index name columns =>
      if column ∈ columns then some [.dropIndex table (buildIndexName table columns name)]
      else some []

/-- The statements ahead of the drop, or `none` where the table is rebuilt. -/
def handleConstraints : List TableConstraint → Option (List BuiltQuery)
  | [] => some []
  | c :: rest =>
      match constraintHandling table column c with
      | none => none
      | some ahead => (handleConstraints rest).map (ahead ++ ·)

def sqliteConstraintHandling (t : TableDef) : Option (List BuiltQuery) :=
  match t.columns.find? (·.name = column) with
  | some c =>
      if c.type.isEnum then none else handleConstraints table column t.constraints
  | none => handleConstraints table column t.constraints

def buildDeleteColumn (columnType : Option ColumnType) : List BuiltQuery :=
  match backend, currentSchema.find? (·.name = table) with
  | .sqlite, some t =>
      match sqliteConstraintHandling table column t with
      | none => buildDeleteColumnSqliteTempTable table column pendingConstraints t columnType
      | some ahead => ahead ++ buildDirectDeleteColumn table column columnType
  | _, _ => buildDirectDeleteColumn table column columnType

/-! Rows -/

/-- The arms of the `CASE` follow the order of the mapping. -/
def buildRemapEnumValues (mapping : List (Int × Int)) : List BuiltQuery :=
  if mapping = [] then []
  else
    let qc := quoteIdent column backend
    let arms := " ".intercalate (mapping.map fun (old, new) => s!"WHEN {qc} = {old} THEN {new}")
    let inList := ", ".intercalate (mapping.map fun (old, _) => toString old)
    [.changeRows table ("UPDATE " ++ quoteIdent table backend ++ " SET " ++ qc ++ " = CASE " ++
      arms ++ " END WHERE " ++ qc ++ " IN (" ++ inList ++ ")")]

def buildDataMigration : DataMigrationSql → List BuiltQuery
  | .uniform sql => [.userSql sql sql sql]
  | .perBackend postgres mysql sqlite => [.userSql postgres mysql sqlite]

end Actions

def buildActionQueriesWithPending (backend : DatabaseBackend) (action : MigrationAction)
    (currentSchema : List TableDef) (pendingConstraints : List TableConstraint) :
    Except QueryError (List BuiltQuery) :=
  match action with
  | .createTable table columns constraints => buildCreateTable backend table columns constraints
  | .deleteTable table => .ok [.dropTable table]
  | .addColumn table column fillWith =>
      buildAddColumn backend table currentSchema pendingConstraints column fillWith
  | .renameColumn table old new => .ok [.renameColumn table old new]
  | .deleteColumn table column =>
      .ok (buildDeleteColumn backend table column currentSchema pendingConstraints
        ((findColumnInSchema currentSchema table column).map (·.type)))
  | .modifyColumnType table column newType fillWith narrowingStrategy timezone =>
      buildWithNarrowingPreprocess backend table column currentSchema pendingConstraints newType
        fillWith narrowingStrategy timezone
  | .modifyColumnNullable table column nullable fillWith deleteNullRows =>
      buildModifyColumnNullable backend table column currentSchema pendingConstraints nullable
        fillWith (deleteNullRows.getD false)
  | .modifyColumnDefault table column newDefault backfill =>
      buildModifyColumnDefault backend table column currentSchema pendingConstraints newDefault
        backfill
  | .modifyColumnComment table column newComment =>
      buildModifyColumnComment backend table column currentSchema newComment
  | .renameTable old new => .ok [.renameTable old new]
  | .rawSql sql => .ok [.userSql sql sql sql]
  | .dataMigration sql _ => .ok (buildDataMigration sql)
  | .addConstraint _ _ | .removeConstraint _ _ | .replaceConstraint _ _ _ =>
      buildConstraintActionQueries backend action currentSchema pendingConstraints
  | .remapEnumValues table column mapping =>
      .ok (buildRemapEnumValues backend table column mapping)

end Vespertide
