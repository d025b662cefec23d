import Vespertide.Diff

/-!
Tables that are created anew because a required column of theirs gets a foreign
key: the actions on such a table go, and it is dropped and created at the end.
-/
namespace Vespertide

inductive RecreateReason where
  | addColumnWithFk
  | addFkToExistingColumn
  deriving DecidableEq, Repr

structure RecreateTableRequired where
  table : String
  column : String
  reason : RecreateReason
  deriving DecidableEq, Repr

def fkColumns (actions : List MigrationAction) : List (String × String) :=
  actions.flatMap fun
    | .addConstraint table (.foreignKey _ columns _ _ _ _ _) => columns.map (table, ·)
    | _ => []

def addedColumnsOf (actions : List MigrationAction) : List (String × String) :=
  actions.filterMap fun
    | .addColumn table column _ => some (table, column.name)
    | _ => none

def requiredWithoutDefault (column : ColumnDef) : Bool := !column.nullable && column.default.isNone

def addsColumnWithFk (keyed : List (String × String)) :
    MigrationAction → List RecreateTableRequired
  | .addColumn table column _ =>
      if (column.foreignKey.isSome ∨ (table, column.name) ∈ keyed) ∧
          requiredWithoutDefault column then
        [⟨table, column.name, .addColumnWithFk⟩]
      else []
  | _ => []

def addsFkToExistingColumn (added : List (String × String)) (currentModels : List TableDef) :
    MigrationAction → List RecreateTableRequired
  | .addConstraint table (.foreignKey _ columns _ _ _ _ _) =>
      columns.flatMap fun col =>
        if (table, col) ∈ added then []
        else
          match (currentModels.find? (·.name = table)).bind
              fun model => model.columns.find? (·.name = col) with
          | some column =>
              if requiredWithoutDefault column then [⟨table, col, .addFkToExistingColumn⟩] else []
          | none => []
  | _ => []

def findNonNullableFkAddColumns (plan : MigrationPlan) (currentModels : List TableDef) :
    List RecreateTableRequired :=
  plan.actions.flatMap (addsColumnWithFk (fkColumns plan.actions)) ++
    plan.actions.flatMap (addsFkToExistingColumn (addedColumnsOf plan.actions) currentModels)

def supersededTable : MigrationAction → Option String
  | .addColumn table _ _ => some table
  | .deleteColumn table _ => some table
  | .renameColumn table _ _ => some table
  | .modifyColumnType table _ _ _ _ _ => some table
  | .modifyColumnNullable table _ _ _ _ => some table
  | .modifyColumnDefault table _ _ _ => some table
  | .modifyColumnComment table _ _ => some table
  | .addConstraint table _ => some table
  | .removeConstraint table _ => some table
  | .replaceConstraint table _ _ => some table
  | _ => none

def tablesToRecreate (recreateTables : List RecreateTableRequired) : List String :=
  ((recreateTables.map (·.table)).dedup).insertionSort (· ≤ ·)

def outsideRecreation (tables : List String) (a : MigrationAction) : Bool :=
  (supersededTable a).all (· ∉ tables)

def recreation (currentModels : List TableDef) (name : String) : List MigrationAction :=
  match currentModels.find? (·.name = name) with
  | some model => [.deleteTable name, .createTable model.name model.columns model.constraints]
  | none => []

def rewritePlanForRecreation (plan : MigrationPlan) (recreateTables : List RecreateTableRequired)
    (currentModels : List TableDef) : MigrationPlan :=
  let tables := tablesToRecreate recreateTables
  { plan with
    actions := plan.actions.filter (outsideRecreation tables) ++
      tables.flatMap (recreation currentModels) }

def handleRecreateRequirements (plan : MigrationPlan) (currentModels : List TableDef)
    (promptFn : List RecreateTableRequired → Except String Bool) : Except String MigrationPlan :=
  let recreateTables := findNonNullableFkAddColumns plan currentModels
  if recreateTables = [] then .ok plan
  else
    match promptFn recreateTables with
    | .error e => .error e
    | .ok false =>
        .error ("Migration cancelled. To proceed without recreation, make the column nullable " ++
          "or add it with a default value that references an existing row.")
    | .ok true => .ok (rewritePlanForRecreation plan recreateTables currentModels)

end Vespertide
