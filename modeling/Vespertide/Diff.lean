import Vespertide.Apply
import Vespertide.Support.KeyedView
import Vespertide.Support.ReadyOrder

/-!
Per-table differences between two schemas, and the tables to drop and create.
Both sides are compared in normalised form; tables and columns are visited in
name order.
-/
namespace Vespertide

abbrev tableKeys (tables : List TableDef) : List String := KeyedView.keys TableDef.name tables
abbrev tableGet (tables : List TableDef) (name : String) : Option TableDef :=
  KeyedView.get TableDef.name tables name
abbrev columnKeys (columns : List ColumnDef) : List String := KeyedView.keys ColumnDef.name columns
abbrev columnGet (columns : List ColumnDef) (name : String) : Option ColumnDef :=
  KeyedView.get ColumnDef.name columns name

/-! Columns -/

def diffDeletedColumns (tableName : String) (fromCols toCols : List ColumnDef) :
    List MigrationAction × List String :=
  let deleted := (columnKeys fromCols).filter fun col => (columnGet toCols col).isNone
  (deleted.map (.deleteColumn tableName ·), deleted)

def sharedColumns (fromCols toCols : List ColumnDef)
    (f : String → ColumnDef → ColumnDef → Option MigrationAction) : List MigrationAction :=
  (columnKeys toCols).filterMap fun col =>
    match columnGet toCols col, columnGet fromCols col with
    | some toDef, some fromDef => f col fromDef toDef
    | _, _ => none

def needsEnumRename : ColumnType → ColumnType → Bool
  | .complex (.enum oldName oldValues), .complex (.enum newName newValues) =>
      oldName ≠ newName ∧ ¬ oldValues.isInteger ∧ ¬ newValues.isInteger
  | _, _ => false

def columnTypeChange (tableName col : String) (fromDef toDef : ColumnDef) :
    Option MigrationAction :=
  let needsTypeMigration := fromDef.type.requiresMigration toDef.type
  let enumRename := !needsTypeMigration && needsEnumRename fromDef.type toDef.type
  if needsTypeMigration || enumRename then
    some (.modifyColumnType tableName col toDef.type none none none)
  else none

def diffColumnTypes (tableName : String) (fromCols toCols : List ColumnDef) :
    List MigrationAction :=
  sharedColumns fromCols toCols (columnTypeChange tableName)

/-- Collecting pairs into an ordered map: the last pair of a key wins. -/
def collectMapping (pairs : List (Int × Int)) : List (Int × Int) :=
  KeyedView.entries Prod.fst pairs

def valueByName (items : List NumValue) (name : String) : Option Int :=
  (KeyedView.get NumValue.name items name).map (·.value)

def computeIntegerEnumRemapping : ColumnType → ColumnType → List (Int × Int)
  | .complex (.enum _ (.integer fromItems)), .complex (.enum _ (.integer toItems)) =>
      if fromItems = toItems then []
      else if fromItems = [] ∨ toItems = [] then []
      else
        collectMapping (fromItems.filterMap fun fromItem =>
          match valueByName toItems fromItem.name with
          | some newVal => if newVal ≠ fromItem.value then some (fromItem.value, newVal) else none
          | none => none)
  | _, _ => []

def integerEnumRemapping (tableName col : String) (fromDef toDef : ColumnDef) :
    Option MigrationAction :=
  let mapping := computeIntegerEnumRemapping fromDef.type toDef.type
  if mapping = [] then none else some (.remapEnumValues tableName col mapping)

def diffIntegerEnumRemappings (tableName : String) (fromCols toCols : List ColumnDef) :
    List MigrationAction :=
  sharedColumns fromCols toCols (integerEnumRemapping tableName)

def columnNullabilityChange (tableName col : String) (fromDef toDef : ColumnDef) :
    Option MigrationAction :=
  if fromDef.nullable ≠ toDef.nullable then
    some (.modifyColumnNullable tableName col toDef.nullable none none)
  else none

def diffColumnNullability (tableName : String) (fromCols toCols : List ColumnDef) :
    List MigrationAction :=
  sharedColumns fromCols toCols (columnNullabilityChange tableName)

/-- `PartialEq` on two optional defaults. -/
def sameDefault : Option DefaultValue → Option DefaultValue → Bool
  | none, none => true
  | some a, some b => a.eqv b
  | _, _ => false

def columnDefaultChange (tableName col : String) (fromDef toDef : ColumnDef) :
    Option MigrationAction :=
  if sameDefault fromDef.default toDef.default then none
  else
    let fromDefault := fromDef.default.map (·.toSql)
    let toDefault := toDef.default.map (·.toSql)
    if fromDefault ≠ toDefault then some (.modifyColumnDefault tableName col toDefault none)
    else none

def diffColumnDefaults (tableName : String) (fromCols toCols : List ColumnDef) :
    List MigrationAction :=
  sharedColumns fromCols toCols (columnDefaultChange tableName)

def columnCommentChange (tableName col : String) (fromDef toDef : ColumnDef) :
    Option MigrationAction :=
  if fromDef.comment ≠ toDef.comment then
    some (.modifyColumnComment tableName col toDef.comment)
  else none

def diffColumnComments (tableName : String) (fromCols toCols : List ColumnDef) :
    List MigrationAction :=
  sharedColumns fromCols toCols (columnCommentChange tableName)

def ColumnDef.stripInline (c : ColumnDef) : ColumnDef :=
  { c with primaryKey := none, unique := none, index := none, foreignKey := none }

def diffAddedColumns (tableName : String) (fromCols toCols : List ColumnDef) :
    List MigrationAction :=
  (columnKeys toCols).filterMap fun col =>
    match columnGet toCols col with
    | some def_ =>
        if (columnGet fromCols col).isNone then
          some (.addColumn tableName def_.stripInline none)
        else none
    | none => none

def diffColumns (tableName : String) (fromTbl toTbl : TableDef) :
    List MigrationAction × List String :=
  let fromCols := fromTbl.columns
  let toCols := toTbl.columns
  let (deletes, deletedColumns) := diffDeletedColumns tableName fromCols toCols
  (deletes ++ diffColumnTypes tableName fromCols toCols
    ++ diffIntegerEnumRemappings tableName fromCols toCols
    ++ diffColumnNullability tableName fromCols toCols
    ++ diffColumnDefaults tableName fromCols toCols
    ++ diffColumnComments tableName fromCols toCols
    ++ diffAddedColumns tableName fromCols toCols, deletedColumns)

/-! Constraints -/

inductive ConstraintIdentityKey where
  | primaryKey
  | foreignKey (columns : List String) (refTable : String) (refColumns : List String)
  | check (name : String)
  | unique (columns : List String)
  | index (columns : List String)
  deriving DecidableEq, Repr

def sortedColumnRefs (columns : List String) : List String := columns.insertionSort (· ≤ ·)

def constraintIdentityKey : TableConstraint → ConstraintIdentityKey
  | .primaryKey _ _ _ => .primaryKey
  | .foreignKey _ columns refTable refColumns _ _ _ =>
      .foreignKey (sortedColumnRefs columns) refTable (sortedColumnRefs refColumns)
  | .check name _ _ => .check name
  | .unique _ columns _ => .unique (sortedColumnRefs columns)
  | .index _ columns => .index (sortedColumnRefs columns)

/-- The pairing of the baseline constraints that disappear with the target
    constraints that appear: each takes the first unused one of its identity. -/
structure Replacements where
  replacedFrom : List Nat
  replacedTo : List Nat
  actions : List MigrationAction
  deriving DecidableEq, Repr

/-- Positions of the target constraints of identity `key` that the baseline lacks. -/
def replacementCandidates (fromConstraints toConstraints : List TableConstraint)
    (key : ConstraintIdentityKey) : List (Nat × TableConstraint) :=
  toConstraints.zipIdx.filterMap fun (c, ti) =>
    if c ∉ fromConstraints ∧ constraintIdentityKey c = key then some (ti, c) else none

def diffReplacedFrom (tableName : String) (fromConstraints toConstraints : List TableConstraint) :
    List (TableConstraint × Nat) → Replacements → Replacements
  | [], r => r
  | (fromConstraint, fi) :: rest, r =>
      if fromConstraint ∈ toConstraints then
        diffReplacedFrom tableName fromConstraints toConstraints rest r
      else
        let candidates := replacementCandidates fromConstraints toConstraints
          (constraintIdentityKey fromConstraint)
        match candidates.find? fun (ti, _) => ti ∉ r.replacedTo with
        | none => diffReplacedFrom tableName fromConstraints toConstraints rest r
        | some (ti, toConstraint) =>
            diffReplacedFrom tableName fromConstraints toConstraints rest
              { replacedFrom := r.replacedFrom ++ [fi]
                replacedTo := r.replacedTo ++ [ti]
                actions := r.actions ++ [.replaceConstraint tableName fromConstraint toConstraint] }

def diffReplacedConstraints (tableName : String) (fromConstraints toConstraints : List TableConstraint) :
    Replacements :=
  diffReplacedFrom tableName fromConstraints toConstraints fromConstraints.zipIdx ⟨[], [], []⟩

def diffRemovedConstraints (tableName : String) (fromConstraints toConstraints : List TableConstraint)
    (deletedColumns : List String) (replacedFrom : List Nat) : List MigrationAction :=
  fromConstraints.zipIdx.filterMap fun (fromConstraint, fi) =>
    if fromConstraint ∈ toConstraints ∨ fi ∈ replacedFrom then none
    else
      let constraintColumns := fromConstraint.columns
      let allColumnsDeleted :=
        constraintColumns ≠ [] ∧ ∀ col ∈ constraintColumns, col ∈ deletedColumns
      if ¬ allColumnsDeleted then some (.removeConstraint tableName fromConstraint) else none

def diffAddedConstraints (tableName : String) (fromConstraints toConstraints : List TableConstraint)
    (replacedTo : List Nat) : List MigrationAction :=
  toConstraints.zipIdx.filterMap fun (toConstraint, ti) =>
    if toConstraint ∈ fromConstraints ∨ ti ∈ replacedTo then none
    else some (.addConstraint tableName toConstraint)

def diffConstraints (tableName : String) (fromTbl toTbl : TableDef) (deletedColumns : List String) :
    List MigrationAction :=
  let r := diffReplacedConstraints tableName fromTbl.constraints toTbl.constraints
  r.actions
    ++ diffRemovedConstraints tableName fromTbl.constraints toTbl.constraints deletedColumns
        r.replacedFrom
    ++ diffAddedConstraints tableName fromTbl.constraints toTbl.constraints r.replacedTo

/-! Tables -/

def normalizeSchema : List TableDef → Except PlannerError (List TableDef)
  | [] => .ok []
  | t :: rest =>
      match t.normalize with
      | .error e => .error (.tableValidation (.normalize t.name e))
      | .ok t' => (normalizeSchema rest).map (t' :: ·)

def diffDeletedTables (fromTables toTables : List TableDef) : List MigrationAction :=
  ((tableKeys fromTables).filter fun name => (tableGet toTables name).isNone).map (.deleteTable ·)

def diffExistingTable (name : String) (fromTables : List TableDef) (toTbl : TableDef) :
    List MigrationAction :=
  match tableGet fromTables name with
  | none => []
  | some fromTbl =>
      let (actions, deletedColumns) := diffColumns name fromTbl toTbl
      actions ++ diffConstraints name fromTbl toTbl deletedColumns

end Vespertide
