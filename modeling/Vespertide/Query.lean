import Vespertide.Naming
import Vespertide.Sql

/-!
The statements the query builders produce. Schema statements are kept as the
data the statement library renders; a check clause is the part of a table
statement that is spliced into its text.
-/
namespace Vespertide
open SqlRows

structure SeaColumnDef where
  name : String
  type : ColumnType
  notNull : Bool
  default : Option DefaultValue
  primaryKey : Bool
  autoIncrement : Bool
  deriving DecidableEq, Repr

structure IndexCreateStatement where
  name : Option String
  table : Option String
  columns : List String
  unique : Bool
  primary : Bool
  deriving DecidableEq, Repr

structure ForeignKeyCreateStatement where
  name : String
  fromTable : String
  fromColumns : List String
  toTable : String
  toColumns : List String
  onDelete : Option ReferenceAction
  onUpdate : Option ReferenceAction
  deriving DecidableEq, Repr

/-- `CONSTRAINT "name" CHECK (expr)` -/
structure CheckClause where
  name : String
  expr : String
  deriving DecidableEq, Repr

structure TableCreateStatement where
  table : String
  columns : List SeaColumnDef
  indexes : List IndexCreateStatement
  foreignKeys : List ForeignKeyCreateStatement
  checks : List CheckClause
  deriving DecidableEq, Repr

inductive FillValue where
  | fillWith (value : String)
  | default (value : DefaultValue)
  | null
  deriving DecidableEq, Repr

inductive BuiltQuery where
  | createTable (stmt : TableCreateStatement)
  | dropTable (table : String)
  | renameTable (old new : String)
  | createIndex (stmt : IndexCreateStatement)
  | dropIndex (table name : String)
  | createForeignKey (stmt : ForeignKeyCreateStatement)
  | dropForeignKey (table name : String)
  /-- `INSERT INTO target (columns) SELECT columns FROM source` -/
  | copyRows (target source : String) (columns : List String)
  /-- the text of a schema statement written by hand, the same on every backend -/
  | alter (sql : String)
  /-- `CREATE TYPE … AS ENUM`, sent to PostgreSQL only -/
  | createEnumType (sql : String)
  /-- the rows that stand against a key: see `renderStatement` -/
  | cleanup (stmt : Statement String)
  /-- `UPDATE table SET column = NULL` or `DELETE FROM table`, `WHERE NOT (expr)` -/
  | checkCleanup (table : String) (nullified : Option String) (expr : String)
  | addColumn (table : String) (column : SeaColumnDef)
  /-- a definition in full on MySQL, with a comment where one is set; on
      PostgreSQL the type and the flags that are set -/
  | modifyColumn (table : String) (column : SeaColumnDef) (comment : Option String)
  | dropColumn (table column : String)
  | renameColumn (table old new : String)
  /-- a copy of the rows that fills the column that is new -/
  | copyRowsFilling (target source : String) (columns : List String) (column : String)
      (type : ColumnType) (fill : FillValue)
  /-- `UPDATE table SET column = value`, everywhere or `WHERE column IS NULL` -/
  | fillColumn (table column value : String) (nullsOnly : Bool)
  /-- `UPDATE table SET column = new WHERE column = old`, both sides bound as values -/
  | replaceValue (table column old new : String)
  /-- the text of an `UPDATE` or a `DELETE` written by hand -/
  | changeRows (table sql : String)
  /-- `DROP TYPE name`, sent to PostgreSQL only -/
  | dropEnumType (name : String)
  /-- `ALTER TYPE old RENAME TO new`, sent to PostgreSQL only -/
  | renameEnumType (old new : String)
  /-- `ALTER COLUMN … TYPE type USING column::text::type`, sent to PostgreSQL only -/
  | castColumn (table column type : String)
  /-- a statement of the user, passed through as it is -/
  | userSql (postgres mysql sqlite : String)
  deriving DecidableEq, Repr

/-- The table whose rows a statement deletes or updates; a copy does neither. -/
def BuiltQuery.changesRowsOf : BuiltQuery → Option String
  | .cleanup stmt => some stmt.table
  | .checkCleanup table _ _ => some table
  | .fillColumn table _ _ _ => some table
  | .replaceValue table _ _ _ => some table
  | .changeRows table _ => some table
  | _ => none

def escapeSqlStringLiteral (s : String) : String :=
  String.ofList (s.toList.flatMap fun c => if c = '\'' then ['\'', '\''] else [c])

def EnumValues.sqlValuesJoined (values : EnumValues) (separator : String) : String :=
  match values with
  | .string values =>
      separator.intercalate (values.map fun s => "'" ++ escapeSqlStringLiteral s ++ "'")
  | .integer values => separator.intercalate (values.map fun v => toString v.value)

end Vespertide
