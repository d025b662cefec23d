import Vespertide.Action
import Vespertide.CheckExpr
import Mathlib.Data.Finset.Basic

/-!
The scans of a plan for constraint additions that may meet rows they refuse.
The user is asked for a strategy for every addition a scan reports.
-/
namespace Vespertide

def findTable (schema : List TableDef) (table : String) : Option TableDef :=
  schema.find? (·.name = table)

/-- `iter().enumerate()` with a `continue` wherever `f` has nothing to report. -/
def scanActions (plan : MigrationPlan) (f : Nat → MigrationAction → Option α) : List α :=
  plan.actions.zipIdx.filterMap fun (action, idx) => f idx action

def TableDef.hasColumns (t : TableDef) (columns : List String) : Bool :=
  columns.all fun c => c ∈ t.columnNames

def sameColumnSet (a b : List String) : Bool := a.toFinset = b.toFinset

/-! Unique -/

inductive PkKind where
  | singleAutoCleanupCapable (column : String)
  | singleInsideUniqueSet (column : String)
  | composite (columns : List String)
  | none
  deriving DecidableEq, Repr

structure FkReference where
  childTable : String
  constraintName : Option String
  childColumns : List String
  deriving DecidableEq, Repr

structure UniqueAdditionWarning where
  actionIndex : Nat
  table : String
  constraintName : Option String
  columns : List String
  pkKind : PkKind
  fkReferences : List FkReference
  deriving DecidableEq, Repr

def firstPrimaryKeyColumns (t : TableDef) : List String :=
  match t.constraints.find? (·.isPrimaryKey) with
  | some c => c.columns
  | none => (t.columns.filter (·.primaryKey.isSome)).map (·.name)

def resolvePkKind (t : TableDef) (uniqueColumns : List String) : PkKind :=
  match firstPrimaryKeyColumns t with
  | [] => .none
  | [pk] =>
      if pk ∈ uniqueColumns then .singleInsideUniqueSet pk else .singleAutoCleanupCapable pk
  | columns => .composite columns

def collectFkReferences (baseline : List TableDef) (targetTable : String)
    (targetColumns : List String) : List FkReference :=
  baseline.flatMap fun tbl => tbl.constraints.filterMap fun c =>
    match c with
    | .foreignKey name columns refTable refColumns _ _ _ =>
        if refTable = targetTable ∧ sameColumnSet refColumns targetColumns then
          some ⟨tbl.name, name, columns⟩
        else none
    | _ => none

def uniqueAddition (baseline : List TableDef) (idx : Nat) :
    MigrationAction → Option UniqueAdditionWarning
  | .addConstraint table (.unique name columns _) =>
      match findTable baseline table with
      | none => none
      | some t =>
          if t.hasColumns columns then
            some ⟨idx, table, name, columns, resolvePkKind t columns,
              collectFkReferences baseline table columns⟩
          else none
  | _ => none

def findUniqueAdditions (plan : MigrationPlan) (baseline : List TableDef) :
    List UniqueAdditionWarning := scanActions plan (uniqueAddition baseline)

/-! Primary key -/

inductive PkAdditionKind where
  | existingColumns | newColumns | mixed
  deriving DecidableEq, Repr

structure PrimaryKeyAdditionWarning where
  actionIndex : Nat
  table : String
  columns : List String
  kind : PkAdditionKind
  nullableColumns : List String
  duplicatePossible : Bool
  autoCleanupCapable : Bool
  deriving DecidableEq, Repr

def pkAdditionKind (t : TableDef) (columns : List String) : PkAdditionKind :=
  let existing := (columns.filter fun c => c ∈ t.columnNames).length
  if existing = 0 then .newColumns
  else if existing = columns.length then .existingColumns
  else .mixed

def nullableKeyColumns (t : TableDef) (columns : List String) : List String :=
  columns.filterMap fun c =>
    (t.columns.find? fun cd => cd.name = c ∧ cd.nullable).map (·.name)

def coveredByUnique (t : TableDef) (columns : List String) : Bool :=
  t.constraints.any fun c =>
    match c with
    | .unique _ uniqueColumns _ => sameColumnSet uniqueColumns columns
    | _ => false

def primaryKeyAddition (baseline : List TableDef) (idx : Nat) :
    MigrationAction → Option PrimaryKeyAdditionWarning
  | .addConstraint table (.primaryKey _ columns _) =>
      match findTable baseline table with
      | none => none
      | some t =>
          let kind := pkAdditionKind t columns
          let nullableColumns := nullableKeyColumns t columns
          let covered := coveredByUnique t columns
          if kind ≠ .existingColumns then none
          else if covered ∧ nullableColumns = [] then none
          else some ⟨idx, table, columns, kind, nullableColumns, !covered,
            !covered && columns.length = 1⟩
  | _ => none

def findPrimaryKeyAdditions (plan : MigrationPlan) (baseline : List TableDef) :
    List PrimaryKeyAdditionWarning := scanActions plan (primaryKeyAddition baseline)

/-! Foreign key -/

structure FkOrphanAdditionWarning where
  actionIndex : Nat
  table : String
  constraintName : Option String
  columns : List String
  refTable : String
  refColumns : List String
  allColumnsNullable : Bool
  deriving DecidableEq, Repr

def allColumnsNullable (t : TableDef) (columns : List String) : Bool :=
  columns.all fun c => (t.columns.find? (·.name = c)).any (·.nullable)

def fkOrphanAddition (baseline : List TableDef) (idx : Nat) :
    MigrationAction → Option FkOrphanAdditionWarning
  | .addConstraint table (.foreignKey name columns refTable refColumns _ _ _) =>
      match findTable baseline table with
      | none => none
      | some t =>
          if t.hasColumns columns then
            some ⟨idx, table, name, columns, refTable, refColumns, allColumnsNullable t columns⟩
          else none
  | _ => none

def findFkOrphanAdditions (plan : MigrationPlan) (baseline : List TableDef) :
    List FkOrphanAdditionWarning := scanActions plan (fkOrphanAddition baseline)

/-! Check -/

structure CheckAdditionWarning where
  actionIndex : Nat
  table : String
  constraintName : String
  checkExpr : String
  targetColumn : String
  targetColumnNullable : Bool
  deriving DecidableEq, Repr

def findCheckTargetColumn (expr : String) (t : TableDef) : Option (String × Bool) :=
  (t.columns.find? fun col => matchesForColumn expr col.name).map fun col =>
    (col.name, col.nullable)

def checkAddition (baseline : List TableDef) (idx : Nat) :
    MigrationAction → Option CheckAdditionWarning
  | .addConstraint table (.check name expr _) =>
      match findTable baseline table with
      | none => none
      | some t =>
          (findCheckTargetColumn expr t).map fun (column, nullable) =>
            ⟨idx, table, name, expr, column, nullable⟩
  | _ => none

def findCheckAdditions (plan : MigrationPlan) (baseline : List TableDef) :
    List CheckAdditionWarning := scanActions plan (checkAddition baseline)

end Vespertide
