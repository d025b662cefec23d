import Mathlib.Data.List.Basic
import Mathlib.Data.String.Basic

/-!
The schema model shared by the planner, the query builder and the exporters:
columns with their inline declarations, table-level constraints, tables.
Table and column names are the transparent string newtypes of the source.
-/
namespace Vespertide

inductive DatabaseBackend where
  | postgres | mySql | sqlite
  deriving DecidableEq, Repr

inductive ReferenceAction where
  | cascade | restrict | setNull | setDefault | noAction
  deriving DecidableEq, Repr

inductive KeepPolicy where
  | first | last
  deriving DecidableEq, Repr

inductive UniqueConstraintStrategy where
  | deleteDuplicates (keep : KeepPolicy)
  deriving DecidableEq, Repr

inductive PrimaryKeyAdditionStrategy where
  | deleteDuplicates (keep : KeepPolicy)
  deriving DecidableEq, Repr

inductive ForeignKeyOrphanStrategy where
  | nullifyOrphans | deleteOrphans
  deriving DecidableEq, Repr

inductive CheckViolationStrategy where
  | nullifyViolatingColumn (column : String)
  | deleteViolatingRows
  deriving DecidableEq, Repr

def UniqueConstraintStrategy.default : UniqueConstraintStrategy := .deleteDuplicates .first
def PrimaryKeyAdditionStrategy.default : PrimaryKeyAdditionStrategy := .deleteDuplicates .first
def ForeignKeyOrphanStrategy.default : ForeignKeyOrphanStrategy := .nullifyOrphans

inductive TableConstraint where
  | primaryKey (autoIncrement : Bool) (columns : List String)
      (strategy : PrimaryKeyAdditionStrategy)
  | unique (name : Option String) (columns : List String) (strategy : UniqueConstraintStrategy)
  | foreignKey (name : Option String) (columns : List String) (refTable : String)
      (refColumns : List String) (onDelete onUpdate : Option ReferenceAction)
      (orphanStrategy : ForeignKeyOrphanStrategy)
  | check (name expr : String) (strategy : CheckViolationStrategy)
  | index (name : Option String) (columns : List String)
  deriving DecidableEq, Repr

/-- Check constraints are expression based: they name no column. -/
def TableConstraint.columns : TableConstraint → List String
  | .primaryKey _ columns _ => columns
  | .unique _ columns _ => columns
  | .foreignKey _ columns _ _ _ _ _ => columns
  | .check _ _ _ => []
  | .index _ columns => columns

def TableConstraint.isPrimaryKey : TableConstraint → Bool
  | .primaryKey _ _ _ => true
  | _ => false

structure PrimaryKeyDef where
  autoIncrement : Bool
  deriving DecidableEq, Repr

inductive PrimaryKeySyntax where
  | bool (b : Bool)
  | object (pkDef : PrimaryKeyDef)
  deriving DecidableEq, Repr

inductive StrOrBoolOrArray where
  | str (name : String)
  | array (names : List String)
  | bool (b : Bool)
  deriving DecidableEq, Repr

structure ForeignKeyDef where
  refTable : String
  refColumns : List String
  onDelete : Option ReferenceAction
  onUpdate : Option ReferenceAction
  orphanStrategy : ForeignKeyOrphanStrategy
  deriving DecidableEq, Repr

structure ReferenceSyntaxDef where
  references : String
  onDelete : Option ReferenceAction
  onUpdate : Option ReferenceAction
  deriving DecidableEq, Repr

inductive ForeignKeySyntax where
  | string (reference : String)
  | reference (syntaxDef : ReferenceSyntaxDef)
  | object (fkDef : ForeignKeyDef)
  deriving DecidableEq, Repr

/-- A 64-bit float is carried by the text its `to_string` renders, which is
    never empty. Distinct floats render distinctly, so the text decides equality
    except for the two zeros (equal floats, texts "0" and "-0") and NaN (never
    equal to itself). -/
structure F64 where
  display : String
  rendered : display ≠ ""
  deriving DecidableEq, Repr

def F64.eqv (a b : F64) : Bool :=
  a.display ≠ "NaN" ∧ (a.display = b.display ∨
    (a.display ∈ ["0", "-0"] ∧ b.display ∈ ["0", "-0"]))

inductive DefaultValue where
  | bool (b : Bool)
  | integer (n : Int)
  | float (f : F64)
  | string (s : String)
  deriving DecidableEq, Repr

/-- The derived `PartialEq`: floats compare as floats. -/
def DefaultValue.eqv : DefaultValue → DefaultValue → Bool
  | .bool a, .bool b => a = b
  | .integer a, .integer b => a = b
  | .float a, .float b => a.eqv b
  | .string a, .string b => a = b
  | _, _ => false

def DefaultValue.toSql : DefaultValue → String
  | .bool b => if b then "true" else "false"
  | .integer n => toString n
  | .float f => f.display
  | .string s => if s = "" then "''" else s

inductive SimpleColumnType where
  | smallInt | integer | bigInt | real | doublePrecision | text | boolean
  | date | time | timestamp | timestamptz | interval | bytea | uuid | json
  | inet | cidr | macaddr | xml
  deriving DecidableEq, Repr

def SimpleColumnType.supportsAutoIncrement : SimpleColumnType → Bool
  | .smallInt | .integer | .bigInt => true
  | _ => false

structure NumValue where
  name : String
  value : Int
  deriving DecidableEq, Repr

inductive EnumValues where
  | string (values : List String)
  | integer (values : List NumValue)
  deriving DecidableEq, Repr

def EnumValues.isInteger : EnumValues → Bool
  | .integer _ => true
  | .string _ => false

inductive ComplexColumnType where
  | varchar (length : Nat)
  | numeric (precision scale : Nat)
  | char (length : Nat)
  | custom (customType : String)
  | enum (name : String) (values : EnumValues)
  deriving DecidableEq, Repr

inductive ColumnType where
  | simple (ty : SimpleColumnType)
  | complex (ty : ComplexColumnType)
  deriving DecidableEq, Repr

def ColumnType.supportsAutoIncrement : ColumnType → Bool
  | .simple ty => ty.supportsAutoIncrement
  | .complex _ => false

/-- Integer enums share one SQL type; string enums compare by values, not by name. -/
def ColumnType.requiresMigration : ColumnType → ColumnType → Bool
  | .complex (.enum _ values1), .complex (.enum _ values2) =>
      if values1.isInteger ∧ values2.isInteger then false else values1 ≠ values2
  | self, other => self ≠ other

structure ColumnDef where
  name : String
  type : ColumnType
  nullable : Bool
  default : Option DefaultValue
  comment : Option String
  primaryKey : Option PrimaryKeySyntax
  unique : Option StrOrBoolOrArray
  index : Option StrOrBoolOrArray
  foreignKey : Option ForeignKeySyntax
  deriving DecidableEq, Repr

def ColumnDef.new (name : String) (type : ColumnType) (nullable : Bool) : ColumnDef :=
  ⟨name, type, nullable, none, none, none, none, none, none⟩

structure TableDef where
  name : String
  description : Option String
  columns : List ColumnDef
  constraints : List TableConstraint
  deriving DecidableEq, Repr

def TableDef.columnNames (t : TableDef) : List String := t.columns.map (·.name)

inductive TableValidationError where
  | duplicateColumnName (table column : String)
  | duplicateIndexColumn (indexName columnName : String)
  | invalidForeignKeyFormat (columnName value : String)
  | invariantViolation (context : String)
  deriving DecidableEq, Repr

def TableValidationError.toString : TableValidationError → String
  | .duplicateColumnName table column =>
      s!"table '{table}' has duplicate column name '{column}'"
  | .duplicateIndexColumn indexName columnName =>
      s!"Duplicate index '{indexName}' on column '{columnName}': the same index name cannot be applied to the same column multiple times"
  | .invalidForeignKeyFormat columnName value =>
      s!"Invalid foreign key format '{value}' on column '{columnName}': expected 'table.column' format"
  | .invariantViolation context =>
      s!"internal table normalization invariant violated: {context}"

/-- The names seen so far are kept in `seen`, as the set of the source. -/
def checkUniqueColumnNames (table : String) :
    List String → List ColumnDef → Except TableValidationError Unit
  | _, [] => .ok ()
  | seen, col :: rest =>
      if col.name ∈ seen then .error (.duplicateColumnName table col.name)
      else checkUniqueColumnNames table (col.name :: seen) rest

def TableDef.validateUniqueColumnNames (t : TableDef) : Except TableValidationError Unit :=
  checkUniqueColumnNames t.name [] t.columns

theorem check_unique_ok (table : String) (cols : List ColumnDef) (seen : List String) :
    checkUniqueColumnNames table seen cols = .ok () ↔
      (cols.map (·.name)).Nodup ∧ ∀ c ∈ cols, c.name ∉ seen := by
  induction cols generalizing seen with
  | nil => simp [checkUniqueColumnNames]
  | cons col rest ih =>
    simp only [checkUniqueColumnNames]
    split
    · rename_i dup
      simp [dup]
    · rename_i fresh
      rw [ih]
      simp only [List.map_cons, List.nodup_cons, List.mem_cons, List.mem_map, not_or,
        forall_eq_or_imp, not_exists, not_and]
      constructor
      · rintro ⟨nodup, apart⟩
        exact ⟨⟨fun c hc => (apart c hc).1, nodup⟩, fresh, fun c hc => (apart c hc).2⟩
      · rintro ⟨⟨head, nodup⟩, _, apart⟩
        exact ⟨nodup, fun c hc => ⟨head c hc, apart c hc⟩⟩

theorem validate_unique_iff (t : TableDef) :
    t.validateUniqueColumnNames = .ok () ↔ t.columnNames.Nodup := by
  simp [TableDef.validateUniqueColumnNames, check_unique_ok, TableDef.columnNames]

end Vespertide
