import Vespertide.Diff
import Vespertide.PlanValidation
import Vespertide.Additions

/-!
Drops that may be meant as renames. Every dropped column and table of a plan is
reported with the additions it may have been renamed to, and the answers rewrite
the plan.
-/
namespace Vespertide

inductive DropTarget where
  | column (table column columnType : String)
  | table (name : String)
  deriving DecidableEq, Repr

inductive Match where
  | exact | sameType | different
  deriving DecidableEq, Repr

def Match.rank : Match → Nat
  | .exact => 0
  | .sameType => 1
  | .different => 2

structure RenameCandidate where
  targetName : String
  matchQuality : Match
  differences : List String
  deriving DecidableEq, Repr

structure DropResolution where
  actionIndex : Nat
  target : DropTarget
  candidates : List RenameCandidate
  deriving DecidableEq, Repr

/-! Candidates -/

section Candidates
variable (lowercase : String → String)

def renderColumnType (c : ColumnDef) : String :=
  c.type.toDisplayString lowercase ++ (if c.nullable then "" else " NOT NULL")

def renderDefault : Option DefaultValue → String
  | some v => v.toSql
  | none => "(none)"

def gradeOf (sameType : Bool) (differences : List String) : Match :=
  if differences = [] then .exact else if sameType then .sameType else .different

def columnCandidate (dropped : Option ColumnDef) (added : ColumnDef) : RenameCandidate :=
  match dropped with
  | none => ⟨added.name, .different, ["dropped column not found in baseline"]⟩
  | some dropped =>
      let differences :=
        (if dropped.type ≠ added.type then
          [s!"type: {renderColumnType lowercase dropped} → {renderColumnType lowercase added}"]
          else []) ++
        (if dropped.nullable ≠ added.nullable then
          [s!"nullable: {dropped.nullable} → {added.nullable}"] else []) ++
        (if sameDefault dropped.default added.default then []
          else [s!"default: {renderDefault dropped.default} → {renderDefault added.default}"])
      ⟨added.name, gradeOf (dropped.type = added.type) differences, differences⟩

def onlyIn (these those : List String) : List String :=
  (these.dedup.filter (· ∉ those)).insertionSort (· ≤ ·)

def tableCandidate (baselineColumns : List String) (newName : String)
    (newColumns : List ColumnDef) : RenameCandidate :=
  let newNames := newColumns.map (·.name)
  let removed := onlyIn baselineColumns newNames
  let added := onlyIn newNames baselineColumns
  let differences :=
    (if removed = [] then [] else ["removed columns: " ++ ", ".intercalate removed]) ++
    (if added = [] then [] else ["added columns: " ++ ", ".intercalate added])
  ⟨newName, gradeOf false differences, differences⟩

def sortCandidates (candidates : List RenameCandidate) : List RenameCandidate :=
  candidates.insertionSort fun a b => a.matchQuality.rank < b.matchQuality.rank ∨
    (a.matchQuality.rank = b.matchQuality.rank ∧ a.targetName ≤ b.targetName)

def resolveColumnDrop (actionIndex : Nat) (table column : String) (plan : MigrationPlan)
    (baseline : List TableDef) : DropResolution :=
  let dropped := findColumnInSchema baseline table column
  { actionIndex
    target := .column table column ((dropped.map (renderColumnType lowercase)).getD "(unknown)")
    candidates := sortCandidates (plan.actions.filterMap fun
      | .addColumn addTable added _ =>
          if addTable = table then some (columnCandidate lowercase dropped added) else none
      | _ => none) }

def resolveTableDrop (actionIndex : Nat) (table : String) (plan : MigrationPlan)
    (baseline : List TableDef) : DropResolution :=
  let baselineColumns := ((baseline.find? (·.name = table)).map (·.columnNames)).getD []
  { actionIndex
    target := .table table
    candidates := sortCandidates (plan.actions.filterMap fun
      | .createTable newName columns _ => some (tableCandidate baselineColumns newName columns)
      | _ => none) }

def dropResolution (plan : MigrationPlan) (baseline : List TableDef) (idx : Nat) :
    MigrationAction → Option DropResolution
  | .deleteColumn table column => some (resolveColumnDrop lowercase idx table column plan baseline)
  | .deleteTable table => some (resolveTableDrop idx table plan baseline)
  | _ => none

def findDropResolutions (plan : MigrationPlan) (baseline : List TableDef) : List DropResolution :=
  scanActions plan (dropResolution lowercase plan baseline)

end Candidates

/-! Rewriting -/

inductive DropChoice where
  | drop
  | renameTo (target : String)
  deriving DecidableEq, Repr

inductive DropResolutionError where
  | dropActionMissing (what : String)
  | targetActionMissing (what : String)
  deriving DecidableEq, Repr

def dropsColumn (table column : String) : MigrationAction → Bool
  | .deleteColumn t c => t = table && c = column
  | _ => false

def addsColumn (table column : String) : MigrationAction → Bool
  | .addColumn t c _ => t = table && c.name = column
  | _ => false

def deletesTable (name : String) : MigrationAction → Bool
  | .deleteTable table => table = name
  | _ => false

def createsTable (name : String) : MigrationAction → Bool
  | .createTable table _ _ => table = name
  | _ => false

/-- The first drop and the first addition go, and what replaces the addition is put
    where the earlier of the two was. -/
def rewritePair (isDrop isAddition : MigrationAction → Bool) (dropMissing additionMissing : String)
    (replacement : MigrationAction → List MigrationAction) (actions : List MigrationAction) :
    Except DropResolutionError (List MigrationAction) :=
  match actions.findIdx? isDrop with
  | none => .error (.dropActionMissing dropMissing)
  | some dropIdx =>
      match actions.findIdx? isAddition with
      | none => .error (.targetActionMissing additionMissing)
      | some addIdx =>
          let lo := min dropIdx addIdx
          let hi := max dropIdx addIdx
          let rest := (actions.eraseIdx hi).eraseIdx lo
          .ok (rest.take lo ++ actions[addIdx]?.toList.flatMap replacement ++ rest.drop lo)

def propertyChanges (table column : String) (old new : ColumnDef) : List MigrationAction :=
  (if old.type ≠ new.type then [.modifyColumnType table column new.type none none none] else []) ++
  (if old.nullable ≠ new.nullable then
    [.modifyColumnNullable table column new.nullable none none] else []) ++
  (if sameDefault old.default new.default then []
    else [.modifyColumnDefault table column (new.default.map (·.toSql)) none])

def columnRename (baseline : List TableDef) (table oldColumn newColumn : String) :
    MigrationAction → List MigrationAction
  | .addColumn _ added _ => .renameColumn table oldColumn newColumn ::
      match findColumnInSchema baseline table oldColumn with
      | some old => propertyChanges table newColumn old added
      | none => []
  | _ => []

def applyColumnRename (baseline : List TableDef) (table oldColumn newColumn : String)
    (actions : List MigrationAction) : Except DropResolutionError (List MigrationAction) :=
  rewritePair (dropsColumn table oldColumn) (addsColumn table newColumn)
    s!"DeleteColumn {table}.{oldColumn}" s!"AddColumn {table}.{newColumn}"
    (columnRename baseline table oldColumn newColumn) actions

def keptChanges (table : String) (old : List ColumnDef) (col : ColumnDef) : List MigrationAction :=
  match columnGet old col.name with
  | some oldCol => propertyChanges table col.name oldCol col
  | none => []

def diffTableColumns (table : String) (old new : List ColumnDef) : List MigrationAction :=
  (old.filter fun col => (columnGet new col.name).isNone).map (.deleteColumn table ·.name) ++
  (new.filter fun col => (columnGet old col.name).isNone).map (.addColumn table · none) ++
  new.flatMap (keptChanges table old)

def diffTableConstraints (table : String) (old new : List TableConstraint) :
    List MigrationAction :=
  (old.filter (· ∉ new)).map (.removeConstraint table ·) ++
  (new.filter (· ∉ old)).map (.addConstraint table ·)

def tableRename (baseline : List TableDef) (oldName newName : String) :
    MigrationAction → List MigrationAction
  | .createTable _ newColumns newConstraints => .renameTable oldName newName ::
      match baseline.find? (·.name = oldName) with
      | some old => diffTableColumns newName old.columns newColumns ++
          diffTableConstraints newName old.constraints newConstraints
      | none => []
  | _ => []

def applyTableRename (baseline : List TableDef) (oldName newName : String)
    (actions : List MigrationAction) : Except DropResolutionError (List MigrationAction) :=
  rewritePair (deletesTable oldName) (createsTable newName)
    s!"DeleteTable {oldName}" s!"CreateTable {newName}"
    (tableRename baseline oldName newName) actions

def applyDropResolution (baseline : List TableDef) (resolution : DropResolution)
    (choice : DropChoice) (actions : List MigrationAction) :
    Except DropResolutionError (List MigrationAction) :=
  match choice with
  | .drop => .ok actions
  | .renameTo target =>
      match resolution.target with
      | .column table column _ => applyColumnRename baseline table column target actions
      | .table name => applyTableRename baseline name target actions

/-- The answers are put in, those about the later actions first. -/
def applyDropResolutions (baseline : List TableDef) (chosen : List (DropResolution × DropChoice))
    (actions : List MigrationAction) : Except DropResolutionError (List MigrationAction) :=
  (chosen.insertionSort fun a b => b.1.actionIndex ≤ a.1.actionIndex).foldlM
    (fun actions answer => applyDropResolution baseline answer.1 answer.2 actions) actions

end Vespertide
