import Vespertide.Action
import Vespertide.Naming
import Vespertide.Normalize

/-!
Replay of one migration action on an in-memory schema. The schema is mutated in
place by the source, so an action yields the schema it leaves behind together
with the error, if any: a failing action need not leave the schema untouched.
-/
namespace Vespertide

structure Outcome (σ : Type) where
  state : σ
  error : Option PlannerError
  deriving DecidableEq, Repr

def Outcome.ok (s : σ) : Outcome σ := ⟨s, none⟩
def Outcome.fail (s : σ) (e : PlannerError) : Outcome σ := ⟨s, some e⟩

abbrev Schema := List TableDef

/-- `find_table_mut` and a mutation of the table found. -/
def onTable (table : String) (f : TableDef → Outcome TableDef) : Schema → Outcome Schema
  | [] => .fail [] (.tableNotFound table)
  | t :: rest =>
      if t.name = table then
        let r := f t
        ⟨r.state :: rest, r.error⟩
      else
        let r := onTable table f rest
        ⟨t :: r.state, r.error⟩

/-- `find_column_mut` on the table found, and a mutation of the column found. -/
def mapFirstColumn (column : String) (f : ColumnDef → ColumnDef) : List ColumnDef → List ColumnDef
  | [] => []
  | c :: rest => if c.name = column then f c :: rest else c :: mapFirstColumn column f rest

def onColumn (table column : String) (f : ColumnDef → ColumnDef) (t : TableDef) :
    Outcome TableDef :=
  if column ∈ t.columnNames then .ok { t with columns := mapFirstColumn column f t.columns }
  else .fail t (.columnNotFound table column)

/-! Tables -/

def createTable (schema : Schema) (table : String) (columns : List ColumnDef)
    (constraints : List TableConstraint) : Outcome Schema :=
  if schema.any (·.name = table) then .fail schema (.tableExists table)
  else
    match (TableDef.mk table none columns constraints).normalize with
    | .error e => .fail schema (.tableValidation (.normalize table e))
    | .ok normalized => .ok (schema ++ [normalized])

def deleteTable (schema : Schema) (table : String) : Outcome Schema :=
  let kept := schema.filter (·.name ≠ table)
  if kept.length = schema.length then .fail kept (.tableNotFound table) else .ok kept

def retargetConstraint (old new : String) : TableConstraint → TableConstraint
  | .foreignKey name columns refTable refColumns onDelete onUpdate orphanStrategy =>
      .foreignKey name columns (if refTable = old then new else refTable) refColumns
        onDelete onUpdate orphanStrategy
  | c => c

def renameTable (schema : Schema) (old new : String) : Outcome Schema :=
  if schema.any (·.name = new) then .fail schema (.tableExists new)
  else
    let renamed := onTable old (fun t => .ok { t with name := new }) schema
    match renamed.error with
    | some e => .fail renamed.state e
    | none => .ok (renamed.state.map fun t =>
        { t with constraints := t.constraints.map (retargetConstraint old new) })

/-! Columns -/

/-- The table is moved out before it is normalised again; a failing
    normalisation leaves the placeholder behind. -/
def addColumnTo (table : String) (column : ColumnDef) (tbl : TableDef) : Outcome TableDef :=
  if tbl.columns.any (·.name = column.name) then
    .fail tbl (.columnExists table column.name)
  else
    match { tbl with columns := tbl.columns ++ [column] }.normalize with
    | .error e => .fail ⟨table, none, [], []⟩
        (.tableValidation (.normalizeAfterAdding table column.name e))
    | .ok normalized => .ok normalized

def dropColumnFromConstraint (column : String) : TableConstraint → Option TableConstraint
  | .primaryKey autoIncrement columns strategy =>
      let columns := columns.filter (· ≠ column)
      if columns = [] then none else some (.primaryKey autoIncrement columns strategy)
  | .unique name columns strategy =>
      let columns := columns.filter (· ≠ column)
      if columns = [] then none else some (.unique name columns strategy)
  | .index name columns =>
      let columns := columns.filter (· ≠ column)
      if columns = [] then none else some (.index name columns)
  | .foreignKey name columns refTable refColumns onDelete onUpdate orphanStrategy =>
      let columns := columns.filter (· ≠ column)
      if columns = [] then none
      else some (.foreignKey name columns refTable refColumns onDelete onUpdate orphanStrategy)
  | .check name expr strategy => some (.check name expr strategy)

def dropColumnFromConstraints (constraints : List TableConstraint) (column : String) :
    List TableConstraint :=
  constraints.filterMap (dropColumnFromConstraint column)

def deleteColumnFrom (table column : String) (tbl : TableDef) : Outcome TableDef :=
  let columns := tbl.columns.filter (·.name ≠ column)
  if columns.length = tbl.columns.length then
    .fail { tbl with columns } (.columnNotFound table column)
  else
    .ok { tbl with columns, constraints := dropColumnFromConstraints tbl.constraints column }

def renameColumnRefs (old new : String) (columns : List String) : List String :=
  columns.map fun c => if c = old then new else c

def renameColumnInConstraint (old new : String) : TableConstraint → TableConstraint
  | .primaryKey autoIncrement columns strategy =>
      .primaryKey autoIncrement (renameColumnRefs old new columns) strategy
  | .unique name columns strategy => .unique name (renameColumnRefs old new columns) strategy
  | .index name columns => .index name (renameColumnRefs old new columns)
  | .foreignKey name columns refTable refColumns onDelete onUpdate orphanStrategy =>
      .foreignKey name (renameColumnRefs old new columns) refTable
        (renameColumnRefs old new refColumns) onDelete onUpdate orphanStrategy
  | .check name expr strategy => .check name expr strategy

def renameColumnIn (table old new : String) (tbl : TableDef) : Outcome TableDef :=
  if old ∈ tbl.columnNames then
    .ok { tbl with
      columns := mapFirstColumn old (fun c => { c with name := new }) tbl.columns
      constraints := tbl.constraints.map (renameColumnInConstraint old new) }
  else .fail tbl (.columnNotFound table old)

def remapItems (mapping : List (Int × Int)) (items : List NumValue) : List NumValue :=
  items.map fun item => { item with value := (mapping.lookup item.value).getD item.value }

def remapType (mapping : List (Int × Int)) : ColumnType → ColumnType
  | .complex (.enum name (.integer items)) => .complex (.enum name (.integer (remapItems mapping items)))
  | ty => ty

/-! Constraints -/

def clearColumnsField (clear : ColumnDef → ColumnDef) (columns : List String)
    (cols : List ColumnDef) : List ColumnDef :=
  columns.foldl (fun cols colName => mapFirstColumn colName clear cols) cols

/-- The array and the string form of an inline declaration, without `name`. -/
def clearUniqueName (constraintName : String) (col : ColumnDef) : ColumnDef :=
  match col.unique with
  | some (.array names) =>
      let names := names.filter (· ≠ constraintName)
      { col with unique := if names = [] then none else some (.array names) }
  | some (.str name) => if name = constraintName then { col with unique := none } else col
  | _ => col

def clearUniqueFields (name : Option String) (columns : List String) (cols : List ColumnDef) :
    List ColumnDef :=
  match name with
  | none =>
      match columns with
      | [column] => mapFirstColumn column (fun c => { c with unique := none }) cols
      | _ => cols
  | some constraintName => cols.map (clearUniqueName constraintName)

def clearIndexName (constraintName : String) (col : ColumnDef) : ColumnDef :=
  match col.index with
  | some (.str name) => if name = constraintName then { col with index := none } else col
  | some (.array names) =>
      let filtered := names.filter (· ≠ constraintName)
      if filtered = [] then { col with index := none }
      else if filtered.length < names.length then { col with index := some (.array filtered) }
      else col
  | _ => col

/-- The first column whose generated index name is the constraint's own. -/
def clearAutoNamedIndex (table : String) (name : Option String) : List ColumnDef → List ColumnDef
  | [] => []
  | col :: rest =>
      if name = some (buildIndexName table [col.name] none) then
        { col with index := none } :: rest
      else col :: clearAutoNamedIndex table name rest

def clearIndexFields (table : String) (name : Option String) (columns : List String)
    (cols : List ColumnDef) : List ColumnDef :=
  let cols := clearAutoNamedIndex table name cols
  match name with
  | none =>
      match columns with
      | [column] => mapFirstColumn column (fun c => { c with index := none }) cols
      | _ => cols
  | some constraintName => cols.map (clearIndexName constraintName)

def clearInlineConstraintFields (table : String) (constraint : TableConstraint)
    (cols : List ColumnDef) : List ColumnDef :=
  match constraint with
  | .unique name columns _ => clearUniqueFields name columns cols
  | .primaryKey _ columns _ =>
      clearColumnsField (fun c => { c with primaryKey := none }) columns cols
  | .foreignKey _ columns _ _ _ _ _ =>
      clearColumnsField (fun c => { c with foreignKey := none }) columns cols
  | .check _ _ _ => cols
  | .index name columns => clearIndexFields table name columns cols

def addConstraintTo (constraint : TableConstraint) (tbl : TableDef) : Outcome TableDef :=
  .ok (if constraint ∈ tbl.constraints then tbl
       else { tbl with constraints := tbl.constraints ++ [constraint] })

def removeConstraintFrom (table : String) (constraint : TableConstraint) (tbl : TableDef) :
    Outcome TableDef :=
  .ok { tbl with
    constraints := tbl.constraints.filter (· ≠ constraint)
    columns := clearInlineConstraintFields table constraint tbl.columns }

def replaceFirst [DecidableEq α] (old new : α) : List α → List α
  | [] => []
  | x :: rest => if x = old then new :: rest else x :: replaceFirst old new rest

def replaceConstraintIn (table : String) (old new : TableConstraint) (tbl : TableDef) :
    Outcome TableDef :=
  if old ∈ tbl.constraints then
    .ok { tbl with
      constraints := replaceFirst old new tbl.constraints
      columns := clearInlineConstraintFields table old tbl.columns }
  else .fail tbl (.tableValidation (.replaceNotFound table old))

/-- Data migrations change rows only, and raw SQL is opaque to replay. -/
def applyAction (schema : Schema) : MigrationAction → Outcome Schema
  | .createTable table columns constraints => createTable schema table columns constraints
  | .deleteTable table => deleteTable schema table
  | .renameTable old new => renameTable schema old new
  | .addColumn table column _ => onTable table (addColumnTo table column) schema
  | .deleteColumn table column => onTable table (deleteColumnFrom table column) schema
  | .renameColumn table old new => onTable table (renameColumnIn table old new) schema
  | .modifyColumnType table column newType _ _ _ =>
      onTable table (onColumn table column fun c => { c with type := newType }) schema
  | .modifyColumnNullable table column nullable _ _ =>
      onTable table (onColumn table column fun c => { c with nullable }) schema
  | .modifyColumnDefault table column newDefault _ =>
      onTable table (onColumn table column fun c =>
        { c with default := newDefault.map .string }) schema
  | .modifyColumnComment table column newComment =>
      onTable table (onColumn table column fun c => { c with comment := newComment }) schema
  | .addConstraint table constraint => onTable table (addConstraintTo constraint) schema
  | .removeConstraint table constraint =>
      onTable table (removeConstraintFrom table constraint) schema
  | .replaceConstraint table old new => onTable table (replaceConstraintIn table old new) schema
  | .remapEnumValues table column mapping =>
      onTable table (onColumn table column fun c => { c with type := remapType mapping c.type })
        schema
  | .dataMigration _ _ => .ok schema
  | .rawSql _ => .ok schema

def Outcome.toExcept (r : Outcome σ) : Except PlannerError σ :=
  match r.error with
  | none => .ok r.state
  | some e => .error e

def applyActions (schema : Schema) (actions : List MigrationAction) : Except PlannerError Schema :=
  actions.foldlM (fun s a => (applyAction s a).toExcept) schema

def schemaFromPlans (plans : List MigrationPlan) : Except PlannerError Schema :=
  plans.foldlM (fun s plan => applyActions s plan.actions) []

end Vespertide
