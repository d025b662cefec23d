import Vespertide.BetweenOrder
import Vespertide.CheckDefault
import Vespertide.EnumLiteral
import Vespertide.Support.KeyedView

/-!
The validator of a schema. Every repeated table name is reported, and of each
table the first check that fails. A large schema is visited in parallel and the
reports sorted back by index, which changes nothing.
-/
namespace Vespertide

inductive SchemaViolation where
  | duplicateTableName (table : String)
  | tableValidation (e : TableValidationError)
  | missingPrimaryKey (table : String)
  | primaryKeyColumnNullable (table column : String)
  | invalidAutoIncrement (table column : String) (type : ColumnType)
  /-- "numeric column '{}.{}' scale ({scale}) must be <= precision ({precision})" -/
  | numericScale (table column : String) (scale precision : Nat)
  | duplicateEnumVariantName (enum table column variant : String)
  /-- "integer enum value {} is outside i32 range for enum '{}' in column '{}.{}'" -/
  | enumValueOutsideI32 (value : Int) (enum table column : String)
  | duplicateEnumValue (enum table column : String) (value : Int)
  | invalidEnumDefault (e : InvalidEnumDefaultError)
  | emptyConstraintColumns (table label : String)
  | constraintColumnNotFound (table label column : String)
  | indexColumnNotFound (table index column : String)
  | foreignKeyTableNotFound (table columns refTable : String)
  | foreignKeyColumnNotFound (table columns refTable refColumn : String)
  | defaultViolatesCheck (violation : DefaultViolation)
  | betweenBoundaryReversed (table column checkName low high : String)
  | checkSelfContradiction (table checkName : String) (contradiction : Contradiction)
  deriving DecidableEq, Repr

def firstRepeat {α : Type} [DecidableEq α] : List α → List α → Option α
  | _, [] => none
  | seen, x :: rest => if x ∈ seen then some x else firstRepeat (x :: seen) rest

/-! Primary keys and columns -/

def TableDef.inlinePrimaryKeys (t : TableDef) : List String :=
  (t.columns.filter (·.primaryKey.isSome)).map (·.name)

def TableDef.pkColumns (t : TableDef) : List String :=
  (t.constraints.filter (·.isPrimaryKey)).flatMap (·.columns) ++ t.inlinePrimaryKeys

def primaryKeyViolation (t : TableDef) : Option SchemaViolation :=
  if ¬ t.constraints.any (·.isPrimaryKey) ∧ t.inlinePrimaryKeys = [] then
    some (.missingPrimaryKey t.name)
  else
    (t.columns.find? fun column => column.name ∈ t.pkColumns ∧ column.nullable).map fun column =>
      .primaryKeyColumnNullable t.name column.name

def autoIncrementColumn (t : TableDef) (name : String) : Option SchemaViolation :=
  (t.columns.find? (·.name = name)).bind fun column =>
    if column.type.supportsAutoIncrement then none
    else some (.invalidAutoIncrement t.name name column.type)

def autoIncrementViolation (t : TableDef) : Option SchemaViolation :=
  (t.constraints.findSome? fun
    | .primaryKey true columns _ => columns.findSome? (autoIncrementColumn t)
    | _ => none).or
  (t.columns.findSome? fun column =>
    match column.primaryKey with
    | some (.object ⟨true⟩) =>
        if column.type.supportsAutoIncrement then none
        else some (.invalidAutoIncrement t.name column.name column.type)
    | _ => none)

def enumVariantViolation (table column name : String) : EnumValues → Option SchemaViolation
  | .string variants =>
      (firstRepeat [] variants).map (.duplicateEnumVariantName name table column)
  | .integer variants =>
      ((firstRepeat [] (variants.map (·.name))).map
        (.duplicateEnumVariantName name table column)).or
      (((variants.find? fun variant =>
          ¬ (-2147483648 ≤ variant.value ∧ variant.value ≤ 2147483647)).map fun variant =>
        .enumValueOutsideI32 variant.value name table column).or
      ((firstRepeat [] (variants.map (·.value))).map (.duplicateEnumValue name table column)))

def columnViolation (table : String) (column : ColumnDef) : Option SchemaViolation :=
  match column.type with
  | .complex (.numeric precision scale) =>
      if precision < scale then some (.numericScale table column.name scale precision) else none
  | .complex (.enum name values) =>
      (enumVariantViolation table column.name name values).or
        (column.default.bind fun default =>
          match validateEnumValue name table column.name "default" default.toSql values with
          | .ok _ => none
          | .error e => some (.invalidEnumDefault e))
  | _ => none

/-! Constraints -/

def namedColumnsViolation (t : TableDef) (label : String) (columns : List String) :
    Option SchemaViolation :=
  if columns = [] then some (.emptyConstraintColumns t.name label)
  else (columns.find? (· ∉ t.columnNames)).map (.constraintColumnNotFound t.name label)

def foreignKeyViolation (schema : List TableDef) (t : TableDef) (columns : List String)
    (refTable : String) (refColumns : List String) : Option SchemaViolation :=
  if columns = [] then some (.emptyConstraintColumns t.name "ForeignKey")
  else if refColumns = [] then some (.emptyConstraintColumns refTable "ForeignKey (ref_columns)")
  else
    match KeyedView.get TableDef.name schema refTable with
    | none => some (.foreignKeyTableNotFound t.name (", ".intercalate columns) refTable)
    | some target =>
        ((columns.find? (· ∉ t.columnNames)).map
          (.constraintColumnNotFound t.name "ForeignKey")).or
        (((refColumns.find? (· ∉ target.columnNames)).map
          (.foreignKeyColumnNotFound t.name (", ".intercalate columns) refTable)).or
        (if columns.length ≠ refColumns.length then
          some (.foreignKeyColumnNotFound t.name
            s!"column count mismatch: {columns.length} != {refColumns.length}" refTable "")
        else none))

def constraintViolation (schema : List TableDef) (t : TableDef) :
    TableConstraint → Option SchemaViolation
  | .primaryKey _ columns _ => namedColumnsViolation t "PrimaryKey" columns
  | .unique _ columns _ => namedColumnsViolation t "Unique" columns
  | .foreignKey _ columns refTable refColumns _ _ _ =>
      foreignKeyViolation schema t columns refTable refColumns
  | .check _ _ _ => none
  | .index name columns =>
      let indexName := name.getD "(unnamed)"
      if columns = [] then some (.emptyConstraintColumns t.name ("Index(" ++ indexName ++ ")"))
      else (columns.find? (· ∉ t.columnNames)).map (.indexColumnNotFound t.name indexName)

/-! The schema -/

section Schema
variable (displayFloat : String → String)

def betweenViolation (t : TableDef) : TableConstraint → Option SchemaViolation
  | .check name expr _ =>
      (collectReversedBetween (parseCheckExpr expr)).head?.map fun (column, low, high) =>
        .betweenBoundaryReversed t.name column name (low.displayValue displayFloat)
          (high.displayValue displayFloat)
  | _ => none

def contradictionViolation (t : TableDef) : TableConstraint → Option SchemaViolation
  | .check name expr _ =>
      (findContradiction displayFloat (parseCheckExpr expr)).map
        (.checkSelfContradiction t.name name)
  | _ => none

def exceptError {ε : Type} : Except ε Unit → Option ε
  | .ok _ => none
  | .error e => some e

def tableViolation (schema : List TableDef) (t : TableDef) : Option SchemaViolation :=
  ((exceptError t.validateUniqueColumnNames).map .tableValidation).or <|
  (primaryKeyViolation t).or <|
  (autoIncrementViolation t).or <|
  (t.columns.findSome? (columnViolation t.name)).or <|
  (t.constraints.findSome? (constraintViolation schema t)).or <|
  ((exceptError (validateDefaultVsCheck t)).map .defaultViolatesCheck).or <|
  (t.constraints.findSome? (betweenViolation displayFloat t)).or <|
  t.constraints.findSome? (contradictionViolation displayFloat t)

def repeatedNames : List String → List TableDef → List SchemaViolation
  | _, [] => []
  | seen, t :: rest =>
      if t.name ∈ seen then .duplicateTableName t.name :: repeatedNames seen rest
      else repeatedNames (t.name :: seen) rest

def findSchemaViolations (schema : List TableDef) : List SchemaViolation :=
  repeatedNames [] schema ++ schema.filterMap (tableViolation displayFloat schema)

/-- Several violations are wrapped together. -/
def validateSchema (schema : List TableDef) : Except (List SchemaViolation) Unit :=
  match findSchemaViolations displayFloat schema with
  | [] => .ok ()
  | violations => .error violations

end Schema

/-! What an accepted schema is -/

theorem repeated_names_nil_iff (schema : List TableDef) (seen : List String) :
    repeatedNames seen schema = [] ↔
      (schema.map TableDef.name).Nodup ∧ ∀ t ∈ schema, t.name ∉ seen := by
  induction schema generalizing seen with
  | nil => simp [repeatedNames]
  | cons t rest ih =>
    rw [repeatedNames]
    split
    · rename_i there
      simp [there]
    · rename_i fresh
      rw [ih, List.map_cons, List.nodup_cons, List.forall_mem_cons]
      constructor
      · rintro ⟨nodup, apart⟩
        refine ⟨⟨fun mem => ?_, nodup⟩, fresh, fun s mem => ?_⟩
        · obtain ⟨s, listed, same⟩ := List.mem_map.mp mem
          exact apart s listed (same ▸ List.mem_cons_self)
        · exact fun seen_there => apart s mem (List.mem_cons_of_mem _ seen_there)
      · rintro ⟨⟨head, nodup⟩, -, apart⟩
        refine ⟨nodup, fun s mem there => ?_⟩
        rcases List.mem_cons.mp there with same | there
        · exact head (same ▸ List.mem_map_of_mem mem)
        · exact apart s mem there

theorem validate_schema_iff (displayFloat : String → String) (schema : List TableDef) :
    validateSchema displayFloat schema = .ok () ↔ (schema.map TableDef.name).Nodup ∧
      ∀ t ∈ schema, tableViolation displayFloat schema t = none := by
  have empty : findSchemaViolations displayFloat schema = [] ↔
      (schema.map TableDef.name).Nodup ∧
        ∀ t ∈ schema, tableViolation displayFloat schema t = none := by
    rw [findSchemaViolations, List.append_eq_nil_iff, repeated_names_nil_iff,
      List.filterMap_eq_nil_iff]
    simp
  rw [← empty, validateSchema]
  split
  · rename_i none_found
    exact iff_of_true rfl none_found
  · rename_i found
    exact iff_of_false (fun same => nomatch same) found

end Vespertide
