import Vespertide.Diff
import Vespertide.Support.Rearrange
import Mathlib.Data.Prod.Lex

/-!
The order of the actions of a plan: created tables after the tables they
reference, dropped tables before the tables they reference, creations before
the foreign keys that need them, and enum defaults before the type they leave.
-/
namespace Vespertide
open Rearrange (swapAt)

/-- The tables among `names` that the constraints of `own` reference, itself apart. -/
def referencedTables (names : List String) (own : String) (constraints : List TableConstraint) :
    List String :=
  KeyedView.keys id (constraints.filterMap fun c =>
    match c with
    | .foreignKey _ _ refTable _ _ _ _ =>
        if refTable ∈ names ∧ refTable ≠ own then some refTable else none
    | _ => none)

def creationDependencies (tables : List TableDef) : ReadyOrder.Dependencies String :=
  (KeyedView.entries TableDef.name tables).map fun t =>
    (t.name, referencedTables (tables.map (·.name)) t.name t.constraints)

def topologicalSortTables (tables : List TableDef) : Except PlannerError (List TableDef) :=
  if tables = [] then .ok []
  else
    let result := (ReadyOrder.kahnReadyOrder (creationDependencies tables)).filterMap
      (tableGet tables)
    if result.length ≠ tables.length then
      let placed := result.map (·.name)
      .error (.tableValidation (.circular ((tables.map (·.name)).filter (· ∉ placed))))
    else .ok result

/-! Dropped tables -/

def deleteTableName : MigrationAction → Option String
  | .deleteTable table => some table
  | _ => none

def isDeleteTable (a : MigrationAction) : Bool := (deleteTableName a).isSome

def slotsOf (p : MigrationAction → Bool) (actions : List MigrationAction) : List Nat :=
  (actions.zipIdx.filter fun (a, _) => p a).map (·.2)

def deletionDependencies (names : List String) (allTables : List TableDef) :
    ReadyOrder.Dependencies String :=
  (KeyedView.keys id names).map fun tableName =>
    (tableName, match tableGet allTables tableName with
      | some tableDef => referencedTables names tableName tableDef.constraints
      | none => [])

/-- `originAt` holds the original rank sitting at each rank, `posOf` its inverse. -/
structure SwapState where
  actions : List MigrationAction
  originAt : List Nat
  posOf : List Nat

/-- One destination: swap in the action that belongs there, and keep the books. -/
def placeRank (deleteIndices order : List Nat) (s : SwapState) (dst : Nat) : SwapState :=
  let want := order.getD dst 0
  let src := s.posOf.getD want 0
  if src ≠ dst then
    let displaced := s.originAt.getD dst 0
    { actions := swapAt (deleteIndices.getD dst 0) (deleteIndices.getD src 0) s.actions
      originAt := swapAt dst src s.originAt
      posOf := (s.posOf.set want dst).set displaced src }
  else s

def sortDeleteTables (actions : List MigrationAction) (allTables : List TableDef) :
    List MigrationAction :=
  let deleteIndices := slotsOf isDeleteTable actions
  if deleteIndices.length ≤ 1 then actions
  else
    let nameAt := fun rank => (actions[deleteIndices.getD rank 0]?.bind deleteTableName).getD ""
    let k := deleteIndices.length
    let names := (List.range k).map nameAt
    let sortedTables := (ReadyOrder.kahnReadyOrder (deletionDependencies names allTables)).reverse
    let position := fun rank =>
      if nameAt rank ∈ sortedTables then sortedTables.idxOf (nameAt rank) else 0
    let order := (List.range k).insertionSort fun a b => position a ≤ position b
    ((List.range k).foldl (placeRank deleteIndices order)
      ⟨actions, List.range k, List.range k⟩).actions

/-! Creations before the foreign keys that reference them -/

def createdTableName : MigrationAction → Option String
  | .createTable table _ _ => some table
  | _ => none

def refsCreated (createdTables : List String) : MigrationAction → Bool
  | .addConstraint _ (.foreignKey _ _ refTable _ _ _ _) => refTable ∈ createdTables
  | _ => false

def compareActionsForCreateOrder (createdTables : List String) (a b : MigrationAction) : Ordering :=
  let aIsCreate := (createdTableName a).isSome
  let bIsCreate := (createdTableName b).isSome
  let aRefsCreated := refsCreated createdTables a
  let bRefsCreated := refsCreated createdTables b
  if aIsCreate ≠ bIsCreate then (if aIsCreate then .lt else .gt)
  else if aRefsCreated ≠ bRefsCreated then (if aRefsCreated then .gt else .lt)
  else .eq

/-- `sort_by` is stable, as insertion in list order is. -/
def sortCreateBeforeAddConstraint (actions : List MigrationAction) : List MigrationAction :=
  let createdTables := actions.filterMap createdTableName
  if createdTables = [] then actions
  else actions.insertionSort fun a b => compareActionsForCreateOrder createdTables a b ≠ .gt

/-! Enum defaults before the type change that removes their value -/

def stringEnumValueRemoved (fromType toType : ColumnType) (needle : String) : Bool :=
  match fromType, toType with
  | .complex (.enum _ (.string fromValues)), .complex (.enum _ (.string toValues)) =>
      needle ∈ fromValues ∧ needle ∉ toValues
  | _, _ => false

def extractUnquotedDefault (defaultSql : String) : String :=
  let trimmed := Text.trim defaultSql.toList
  match trimmed with
  | '\'' :: rest =>
      if rest.getLast? = some '\'' then String.ofList rest.dropLast else String.ofList trimmed
  | _ => String.ofList trimmed

def typeChanges (actions : List MigrationAction) : List ((String × String) × Nat × ColumnType) :=
  actions.zipIdx.filterMap fun (a, i) =>
    match a with
    | .modifyColumnType table column newType _ _ _ => some ((table, column), i, newType)
    | _ => none

def defaultChanges (actions : List MigrationAction) : List ((String × String) × Nat) :=
  actions.zipIdx.filterMap fun (a, i) =>
    match a with
    | .modifyColumnDefault table column _ _ => some ((table, column), i)
    | _ => none

def enumDefaultSwap (actions : List MigrationAction) (fromTables : List TableDef)
    (change : (String × String) × Nat × ColumnType) : Option (Nat × Nat) :=
  let ((table, column), typeIdx, newType) := change
  match KeyedView.get (fun c => toLex c.1) (defaultChanges actions) (toLex (table, column)),
      tableGet fromTables table with
  | some (_, defaultIdx), some fromTable =>
      match fromTable.columns.find? (·.name = column) with
      | some fromColumn =>
          match fromColumn.default with
          | some oldDefault =>
              let oldDefaultUnquoted := extractUnquotedDefault oldDefault.toSql
              if stringEnumValueRemoved fromColumn.type newType oldDefaultUnquoted
                  ∧ typeIdx < defaultIdx then
                some (typeIdx, defaultIdx)
              else none
          | none => none
      | none => none
  | _, _ => none

def sortEnumDefaultDependencies (actions : List MigrationAction) (fromTables : List TableDef) :
    List MigrationAction :=
  let swaps := (KeyedView.entries (fun c => toLex c.1) (typeChanges actions)).filterMap
    (enumDefaultSwap actions fromTables)
  swaps.foldl (fun actions (i, j) => swapAt i j actions) actions

/-! The whole difference -/

def createTableAction (toOriginal : List TableDef) (tbl : TableDef) :
    Except PlannerError MigrationAction :=
  match tableGet toOriginal tbl.name with
  | some original => .ok (.createTable original.name original.columns original.constraints)
  | none => .error (.tableValidation (.missingOriginal tbl.name))

def diffCreatedTables (fromTables toTables toOriginal : List TableDef) :
    Except PlannerError (List MigrationAction) := do
  let newTables := (KeyedView.entries TableDef.name toTables).filter fun tbl =>
    (tableGet fromTables tbl.name).isNone
  let sortedNewTables ← topologicalSortTables newTables
  sortedNewTables.mapM (createTableAction toOriginal)

/-- Below the threshold the per-table actions are appended one table after the
    other, from it on they are collected per table and flattened. -/
def diffExistingTables (parTableThreshold : Nat) (fromTables toTables : List TableDef) :
    List MigrationAction :=
  let toMap := KeyedView.entries TableDef.name toTables
  if toMap.length < parTableThreshold then
    toMap.foldl (fun actions tbl => actions ++ diffExistingTable tbl.name fromTables tbl) []
  else (toMap.map fun tbl => diffExistingTable tbl.name fromTables tbl).flatten

def validateColumnNames : List TableDef → Except PlannerError Unit
  | [] => .ok ()
  | t :: rest =>
      match t.validateUniqueColumnNames with
      | .error e => .error (.tableValidation (.table e))
      | .ok () => validateColumnNames rest

def diffSchemasWith (parTableThreshold : Nat) (fromSchema toSchema : List TableDef) :
    Except PlannerError MigrationPlan := do
  validateColumnNames (fromSchema ++ toSchema)
  let fromNormalized ← normalizeSchema fromSchema
  let toNormalized ← normalizeSchema toSchema
  let created ← diffCreatedTables fromNormalized toNormalized toSchema
  let actions := diffDeletedTables fromNormalized toNormalized
    ++ diffExistingTables parTableThreshold fromNormalized toNormalized ++ created
  let actions := sortDeleteTables actions fromNormalized
  let actions := sortCreateBeforeAddConstraint actions
  let actions := sortEnumDefaultDependencies actions fromNormalized
  return { id := "", comment := none, createdAt := none, version := 0, actions }

def diffParTableThreshold : Nat := 10000

def diffSchemas (fromSchema toSchema : List TableDef) : Except PlannerError MigrationPlan :=
  diffSchemasWith diffParTableThreshold fromSchema toSchema

end Vespertide
