import Mathlib.Data.Prod.Lex
import Vespertide.References

/-!
Foreign keys left dangling by the drops of a plan. The check keeps sets over the
whole plan: what it drops, which keys it removes and which it brings in.
-/
namespace Vespertide

structure DanglingFkDrop where
  droppedTable : String
  droppedColumn : Option String
  referencingTable : String
  referencingConstraint : Option String
  deriving DecidableEq, Repr

def DanglingFkDrop.sortKey (d : DanglingFkDrop) :
    String ×ₗ (WithBot String ×ₗ (String ×ₗ WithBot String)) :=
  toLex (d.droppedTable, toLex (d.droppedColumn, toLex (d.referencingTable,
    d.referencingConstraint)))

/-- Dropped columns, and dropped tables without one. -/
abbrev DropSet := List (String × Option String)

def droppedBy : MigrationAction → Option (String × Option String)
  | .deleteTable table => some (table, none)
  | .deleteColumn table column => some (table, some column)
  | _ => none

def collectDropSet (actions : List MigrationAction) : DropSet := actions.filterMap droppedBy

inductive DroppedTarget where
  | wholeTable
  | column (name : String)

def DroppedTarget.droppedColumn : DroppedTarget → Option String
  | .wholeTable => none
  | .column name => some name

def refTargetDropped (dropSet : DropSet) (refTable refColumn : String) : Option DroppedTarget :=
  if (refTable, none) ∈ dropSet then some .wholeTable
  else if (refTable, some refColumn) ∈ dropSet then some (.column refColumn)
  else none

structure SurvivingFk where
  ownerTable : String
  name : Option String
  refTable : String
  refColumns : List String
  deriving DecidableEq, Repr

def survivingFk (owner : String) : TableConstraint → Option SurvivingFk
  | .foreignKey name _ refTable refColumns _ _ _ => some ⟨owner, name, refTable, refColumns⟩
  | _ => none

abbrev RemovedFkKey := String × Option String × List String × String

def removedFkKey (table : String) : TableConstraint → Option RemovedFkKey
  | .foreignKey name columns refTable _ _ _ _ => some (table, name, columns, refTable)
  | _ => none

def removedKeyBy : MigrationAction → Option RemovedFkKey
  | .removeConstraint table constraint => removedFkKey table constraint
  | .replaceConstraint table old _ => removedFkKey table old
  | _ => none

def collectExplicitlyRemovedFks (actions : List MigrationAction) : List RemovedFkKey :=
  actions.filterMap removedKeyBy

def baselineFks (dropSet : DropSet) (removed : List RemovedFkKey) (table : TableDef) :
    List SurvivingFk :=
  if (table.name, none) ∈ dropSet then []
  else
    table.constraints.filterMap fun c =>
      if c.columns.any fun col => (table.name, some col) ∈ dropSet then none
      else if (removedFkKey table.name c).any (· ∈ removed) then none
      else survivingFk table.name c

def introducedFks (dropSet : DropSet) : MigrationAction → List SurvivingFk
  | .createTable table _ constraints =>
      if (table, none) ∈ dropSet then [] else constraints.filterMap (survivingFk table)
  | .addConstraint table constraint =>
      if (table, none) ∈ dropSet then [] else (survivingFk table constraint).toList
  | _ => []

def collectSurvivingFks (actions : List MigrationAction) (baseline : List TableDef)
    (dropSet : DropSet) : List SurvivingFk :=
  baseline.flatMap (baselineFks dropSet (collectExplicitlyRemovedFks actions)) ++
    actions.flatMap (introducedFks dropSet)

def danglingReports (dropSet : DropSet) (fk : SurvivingFk) : List DanglingFkDrop :=
  fk.refColumns.filterMap fun refCol =>
    (refTargetDropped dropSet fk.refTable refCol).map fun dropped =>
      ⟨fk.refTable, dropped.droppedColumn, fk.ownerTable, fk.name⟩

/-- In the order of an ordered set. -/
def findDanglingFkDrops (plan : MigrationPlan) (baseline : List TableDef) : List DanglingFkDrop :=
  let dropSet := collectDropSet plan.actions
  if dropSet = [] then []
  else
    (((collectSurvivingFks plan.actions baseline dropSet).flatMap
      (danglingReports dropSet)).dedup).mergeSort fun a b => a.sortKey ≤ b.sortKey

end Vespertide
