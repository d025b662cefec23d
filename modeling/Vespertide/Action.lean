import Vespertide.Schema

/-!
Migration actions and plans. The fields that only the SQL generator reads
(fill values, narrowing strategies, backfills) travel with the action.
-/
namespace Vespertide

inductive NarrowingStrategy where
  | truncate
  | delete
  | setToValue (value : String)
  deriving DecidableEq, Repr

inductive DataMigrationSql where
  | uniform (sql : String)
  | perBackend (postgres mysql sqlite : String)
  deriving DecidableEq, Repr

inductive MigrationAction where
  | createTable (table : String) (columns : List ColumnDef) (constraints : List TableConstraint)
  | deleteTable (table : String)
  | addColumn (table : String) (column : ColumnDef) (fillWith : Option String)
  | renameColumn (table old new : String)
  | deleteColumn (table column : String)
  | modifyColumnType (table column : String) (newType : ColumnType)
      (fillWith : Option (List (String × String)))
      (narrowingStrategy : Option NarrowingStrategy) (timezone : Option String)
  | modifyColumnNullable (table column : String) (nullable : Bool)
      (fillWith : Option String) (deleteNullRows : Option Bool)
  | modifyColumnDefault (table column : String) (newDefault backfill : Option String)
  | modifyColumnComment (table column : String) (newComment : Option String)
  | addConstraint (table : String) (constraint : TableConstraint)
  | removeConstraint (table : String) (constraint : TableConstraint)
  | replaceConstraint (table : String) (old new : TableConstraint)
  | remapEnumValues (table column : String) (mapping : List (Int × Int))
  | renameTable (old new : String)
  | rawSql (sql : String)
  | dataMigration (sql : DataMigrationSql) (description : Option String)
  deriving DecidableEq, Repr

def MigrationAction.tableName : MigrationAction → Option String
  | .createTable table _ _ => some table
  | .deleteTable table => some table
  | .addColumn table _ _ => some table
  | .renameColumn table _ _ => some table
  | .deleteColumn table _ => some table
  | .modifyColumnType table _ _ _ _ _ => some table
  | .modifyColumnNullable table _ _ _ _ => some table
  | .modifyColumnDefault table _ _ _ => some table
  | .modifyColumnComment table _ _ => some table
  | .addConstraint table _ => some table
  | .removeConstraint table _ => some table
  | .replaceConstraint table _ _ => some table
  | .remapEnumValues table _ _ => some table
  | .renameTable old _ => some old
  | .rawSql _ => none
  | .dataMigration _ _ => none

structure MigrationPlan where
  id : String
  comment : Option String
  createdAt : Option String
  version : Nat
  actions : List MigrationAction
  deriving DecidableEq, Repr

/-- The message of a `TableValidation` error, kept as the data it is formatted from. -/
inductive ValidationMessage where
  /-- the validation error of the table itself -/
  | table (e : TableValidationError)
  /-- "Failed to normalize table '{}': {}" -/
  | normalize (table : String) (e : TableValidationError)
  /-- "Failed to normalize table '{}' after adding column '{}': {}" -/
  | normalizeAfterAdding (table column : String) (e : TableValidationError)
  /-- "constraint to replace not found on table '{}': {:?}" -/
  | replaceNotFound (table : String) (old : TableConstraint)
  /-- "Circular foreign key dependency detected among tables: {:?}" -/
  | circular (remaining : List String)
  /-- "normalized table '{}' missing original table" -/
  | missingOriginal (table : String)
  deriving DecidableEq, Repr

inductive PlannerError where
  | tableExists (table : String)
  | tableNotFound (table : String)
  | columnExists (table column : String)
  | columnNotFound (table column : String)
  | tableValidation (message : ValidationMessage)
  deriving DecidableEq, Repr

end Vespertide
