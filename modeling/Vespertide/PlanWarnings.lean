import Vespertide.Additions
import Vespertide.ConstraintTypeChanges
import Vespertide.Narrowing
import Vespertide.PlanValidation

/-!
The remaining scans of a plan. Each looks at one kind of action and reports at most
one warning for it, under the position of the action in the plan.
-/
namespace Vespertide
open Text

/-! Scans by position -/

section Scan
variable {α : Type} {f : Nat → MigrationAction → Option α} {plan : MigrationPlan}

theorem mem_scan {w : α} :
    w ∈ scanActions plan f ↔ ∃ i a, plan.actions[i]? = some a ∧ f i a = some w := by
  simp only [scanActions, List.mem_filterMap, Prod.exists, List.mk_mem_zipIdx_iff_getElem?]
  exact exists_comm

theorem scan_ascending {index : α → Nat} (at_index : ∀ {i a w}, f i a = some w → index w = i) :
    ((scanActions plan f).map index).Pairwise (· < ·) := by
  have positions : ∀ start, (((plan.actions.zipIdx start).filterMap fun p => f p.2 p.1).map
      index).Sublist ((plan.actions.zipIdx start).map Prod.snd) := by
    induction plan.actions with
    | nil => simp
    | cons a rest ih =>
      intro start
      rw [List.zipIdx_cons, List.filterMap_cons]
      cases found : f start a with
      | none => simpa [found] using (ih (start + 1)).cons start
      | some w => simpa [found, at_index found] using (ih (start + 1)).cons_cons start
  refine List.Pairwise.sublist (positions 0) ?_
  rw [List.zipIdx_map_snd]
  exact List.pairwise_lt_range'

theorem scan_sublist {action : α → MigrationAction}
    (at_action : ∀ {i a w}, f i a = some w → action w = a) :
    ((scanActions plan f).map action).Sublist plan.actions := by
  have entries : ∀ start, (((plan.actions.zipIdx start).filterMap fun p => f p.2 p.1).map
      action).Sublist plan.actions := by
    induction plan.actions with
    | nil => simp
    | cons a rest ih =>
      intro start
      rw [List.zipIdx_cons, List.filterMap_cons]
      cases found : f start a with
      | none => simpa [found] using (ih (start + 1)).cons a
      | some w => simpa [found, at_action found] using (ih (start + 1)).cons_cons a
  exact entries 0

theorem scan_unplaced {unplaced : α → α} (same : ∀ i a, (f i a).map unplaced = f 0 a) :
    (scanActions plan f).map unplaced = plan.actions.filterMap (f 0) := by
  have entries : ∀ start, ((plan.actions.zipIdx start).filterMap fun p => f p.2 p.1).map
      unplaced = plan.actions.filterMap (f 0) := by
    induction plan.actions with
    | nil => simp
    | cons a rest ih =>
      intro start
      rw [List.zipIdx_cons, List.filterMap_cons, List.filterMap_cons, ← same start a]
      cases found : f start a with
      | none => simpa [found] using ih (start + 1)
      | some w => simpa [found] using ih (start + 1)
  exact entries 0

end Scan

/-! Narrowings -/

structure TypeNarrowingWarning where
  actionIndex : Nat
  table : String
  column : String
  kind : NarrowingKind
  fromDisplay : String
  toDisplay : String
  deriving DecidableEq, Repr

def typeNarrowing (lowercase : String → String) (baseline : List TableDef) (idx : Nat) :
    MigrationAction → Option TypeNarrowingWarning
  | .modifyColumnType table column newType _ _ _ =>
      (findColumnInSchema baseline table column).bind fun old =>
        (isNarrowing old.type newType).map fun kind =>
          ⟨idx, table, column, kind, old.type.toDisplayString lowercase,
            newType.toDisplayString lowercase⟩
  | _ => none

def findTypeNarrowings (lowercase : String → String) (plan : MigrationPlan)
    (baseline : List TableDef) : List TypeNarrowingWarning :=
  scanActions plan (typeNarrowing lowercase baseline)

/-! Time zones -/

inductive TimezoneConversionDirection where
  | naiveToAware | awareToNaive
  deriving DecidableEq, Repr

structure TimezoneConversionWarning where
  actionIndex : Nat
  table : String
  column : String
  direction : TimezoneConversionDirection
  currentTimezone : Option String
  deriving DecidableEq, Repr

def classifyDirection : ColumnType → ColumnType → Option TimezoneConversionDirection
  | .simple .timestamp, .simple .timestamptz => some .naiveToAware
  | .simple .timestamptz, .simple .timestamp => some .awareToNaive
  | _, _ => none

def timezoneConversion (baseline : List TableDef) (idx : Nat) :
    MigrationAction → Option TimezoneConversionWarning
  | .modifyColumnType table column newType _ _ timezone =>
      (findColumnInSchema baseline table column).bind fun old =>
        (classifyDirection old.type newType).map fun direction =>
          ⟨idx, table, column, direction, timezone⟩
  | _ => none

def findTimezoneConversions (plan : MigrationPlan) (baseline : List TableDef) :
    List TimezoneConversionWarning := scanActions plan (timezoneConversion baseline)

/-! Defaults -/

inductive DefaultChangeKind where
  | addedDefault | removedDefault | literalToLiteral | literalToFunction
  | functionToLiteral | functionToFunction
  deriving DecidableEq, Repr

inductive RiskLevel where
  | high | medium | low
  deriving DecidableEq, Repr

def DefaultChangeKind.riskLevel : DefaultChangeKind → RiskLevel
  | .literalToFunction => .high
  | .addedDefault | .removedDefault | .functionToLiteral => .medium
  | .literalToLiteral | .functionToFunction => .low

structure DefaultChangeWarning where
  actionIndex : Nat
  table : String
  column : String
  oldDefault : Option String
  newDefault : Option String
  kind : DefaultChangeKind
  deriving DecidableEq, Repr

def functionKeywords : List String :=
  ["CURRENT_TIMESTAMP", "CURRENT_DATE", "CURRENT_TIME", "LOCALTIMESTAMP", "LOCALTIME",
    "CURRENT_USER", "SESSION_USER"]

def isFunctionExpr (s : String) : Bool :=
  let trimmed := trim s.toList
  if trimmed = [] then false
  else '(' ∈ trimmed || functionKeywords.any fun word => eqIgnoreAsciiCase trimmed word.toList

def classifyDefault : Option String → Option String → DefaultChangeKind
  | none, some _ => .addedDefault
  | some _, none => .removedDefault
  | some old, some new =>
      match isFunctionExpr old, isFunctionExpr new with
      | false, true => .literalToFunction
      | true, false => .functionToLiteral
      | false, false => .literalToLiteral
      | true, true => .functionToFunction
  | none, none => .literalToLiteral

/-- The column whose rows a type change or a remapping rewrites already. -/
def valueChangeOf : MigrationAction → Option (String × String)
  | .modifyColumnType table column _ _ _ _ => some (table, column)
  | .remapEnumValues table column _ => some (table, column)
  | _ => none

def collectColumnsWithValueChange (plan : MigrationPlan) : List (String × String) :=
  plan.actions.filterMap valueChangeOf

def lookupOldDefault (baseline : List TableDef) (table column : String) : Option String :=
  (findColumnInSchema baseline table column).bind fun c => c.default.map (·.toSql)

def defaultChange (suppressed : List (String × String)) (baseline : List TableDef) (idx : Nat) :
    MigrationAction → Option DefaultChangeWarning
  | .modifyColumnDefault table column newDefault _ =>
      if suppressed.any (· = (table, column)) then none
      else
        let oldDefault := lookupOldDefault baseline table column
        some ⟨idx, table, column, oldDefault, newDefault, classifyDefault oldDefault newDefault⟩
  | _ => none

def findDefaultChanges (plan : MigrationPlan) (baseline : List TableDef) :
    List DefaultChangeWarning :=
  scanActions plan (defaultChange (collectColumnsWithValueChange plan) baseline)

/-! Policies of foreign keys -/

structure PolicyDelta where
  before : Option ReferenceAction
  after : Option ReferenceAction
  deriving DecidableEq, Repr

structure FkPolicyChangeWarning where
  actionIndex : Nat
  table : String
  constraintName : Option String
  columns : List String
  refTable : String
  refColumns : List String
  onDeleteChange : Option PolicyDelta
  onUpdateChange : Option PolicyDelta
  deriving DecidableEq, Repr

/-- No clause and `NO ACTION` are one policy. -/
def normalisePolicy : Option ReferenceAction → Option ReferenceAction
  | some .noAction => none
  | other => other

def diffPolicy (before after : Option ReferenceAction) : Option PolicyDelta :=
  if normalisePolicy before = normalisePolicy after then none else some ⟨before, after⟩

def fkPolicyChange (idx : Nat) : MigrationAction → Option FkPolicyChangeWarning
  | .replaceConstraint table
      (.foreignKey fromName fromCols fromRefTable fromRefCols fromOnDelete fromOnUpdate _)
      (.foreignKey toName toCols toRefTable toRefCols toOnDelete toOnUpdate _) =>
      let onDeleteChange := diffPolicy fromOnDelete toOnDelete
      let onUpdateChange := diffPolicy fromOnUpdate toOnUpdate
      if onDeleteChange.isNone && onUpdateChange.isNone then none
      else some ⟨idx, table, toName.or fromName, if toCols = [] then fromCols else toCols,
        if toRefTable = "" then fromRefTable else toRefTable,
        if toRefCols = [] then fromRefCols else toRefCols, onDeleteChange, onUpdateChange⟩
  | _ => none

def findFkPolicyChanges (plan : MigrationPlan) : List FkPolicyChangeWarning :=
  scanActions plan fkPolicyChange

/-! Refusals -/

/-- `PrimaryKeyRemovedWithoutReplacement`, kept as the data it is formatted from. -/
structure PrimaryKeyRemoved where
  table : String
  columns : List String
  deriving DecidableEq, Repr

def gainsPrimaryKey : MigrationAction → Option String
  | .addConstraint table constraint => if constraint.isPrimaryKey then some table else none
  | .createTable table _ constraints =>
      if constraints.any (·.isPrimaryKey) then some table else none
  | _ => none

def dropsTable : MigrationAction → Option String
  | .deleteTable table => some table
  | _ => none

def findPrimaryKeyRemovals (plan : MigrationPlan) : List PrimaryKeyRemoved :=
  let tablesGainingPk := plan.actions.filterMap gainsPrimaryKey
  let tablesDropped := plan.actions.filterMap dropsTable
  plan.actions.filterMap fun
    | .removeConstraint table (.primaryKey _ columns _) =>
        if table ∈ tablesDropped ∨ table ∈ tablesGainingPk then none else some ⟨table, columns⟩
    | _ => none

structure AddColumnWithFkRequiresNullable where
  table : String
  column : String
  deriving DecidableEq, Repr

def fkPairs (plan : MigrationPlan) : List (String × String) :=
  plan.actions.flatMap fun
    | .addConstraint table (.foreignKey _ columns _ _ _ _ _) => columns.map (table, ·)
    | _ => []

def findAddcolumnFkNullableViolations (plan : MigrationPlan) :
    List AddColumnWithFkRequiresNullable :=
  plan.actions.filterMap fun
    | .addColumn table column fillWith =>
        let hasValue := fillWith.isSome || column.default.isSome
        if !hasValue || column.nullable then none
        else if column.foreignKey.isSome ||
            (fkPairs plan).any fun (t, c) => t = table && c = column.name then
          some ⟨table, column.name⟩
        else none
    | _ => none

end Vespertide
