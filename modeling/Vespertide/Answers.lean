import Vespertide.PlanWarnings
import Vespertide.SequenceExhaustion
import Vespertide.Support.Edits
import Vespertide.Support.KeyedView

/-!
What the answers to the questions about a plan do to it. Each is put on the action
that its warning points at; an action of another kind, or none, is left alone.
-/
namespace Vespertide

/-! Choices -/

inductive UniqueAdditionChoice where
  | deleteDuplicates (keep : KeepPolicy)
  | continueWithoutCleanup
  deriving DecidableEq, Repr

inductive FkOrphanChoice where
  | nullify | delete
  deriving DecidableEq, Repr

inductive CheckViolationChoice where
  | nullify (column : String)
  | delete
  deriving DecidableEq, Repr

inductive PrimaryKeyAdditionChoice where
  | deleteDuplicates (keep : KeepPolicy)
  | continueWithoutCleanup
  deriving DecidableEq, Repr

inductive SequenceExhaustionChoice where
  | changeToBigInt | proceed
  deriving DecidableEq, Repr

inductive DefaultChoice where
  | backfill | skip
  deriving DecidableEq, Repr

/-! Their effect on one action -/

/-- Without cleanup the strategy stays what it was. -/
def stampUnique (choice : UniqueAdditionChoice) : MigrationAction → MigrationAction
  | .addConstraint table (.unique name columns strategy) =>
      .addConstraint table (.unique name columns (match choice with
        | .deleteDuplicates keep => .deleteDuplicates keep
        | .continueWithoutCleanup => strategy))
  | a => a

def stampFkOrphan (choice : FkOrphanChoice) : MigrationAction → MigrationAction
  | .addConstraint table (.foreignKey name columns refTable refColumns onDelete onUpdate _) =>
      .addConstraint table (.foreignKey name columns refTable refColumns onDelete onUpdate
        (match choice with
          | .nullify => .nullifyOrphans
          | .delete => .deleteOrphans))
  | a => a

def stampCheck (choice : CheckViolationChoice) : MigrationAction → MigrationAction
  | .addConstraint table (.check name expr _) =>
      .addConstraint table (.check name expr (match choice with
        | .nullify column => .nullifyViolatingColumn column
        | .delete => .deleteViolatingRows))
  | a => a

def stampPrimaryKey (choice : PrimaryKeyAdditionChoice) : MigrationAction → MigrationAction
  | .addConstraint table (.primaryKey autoIncrement columns strategy) =>
      .addConstraint table (.primaryKey autoIncrement columns (match choice with
        | .deleteDuplicates keep => .deleteDuplicates keep
        | .continueWithoutCleanup => strategy))
  | a => a

/-- A constraint that is added is not rewritten, whatever was chosen. -/
def stampBigInt (column : String) (choice : SequenceExhaustionChoice) :
    MigrationAction → MigrationAction
  | .createTable table columns constraints =>
      match choice with
      | .changeToBigInt => .createTable table
          (mapFirstColumn column (fun c => { c with type := .simple .bigInt }) columns) constraints
      | .proceed => .createTable table columns constraints
  | .modifyColumnType table name newType fillWith narrowing timezone =>
      match choice with
      | .changeToBigInt =>
          .modifyColumnType table name (.simple .bigInt) fillWith narrowing timezone
      | .proceed => .modifyColumnType table name newType fillWith narrowing timezone
  | a => a

def stampNarrowing (strategy : NarrowingStrategy) : MigrationAction → MigrationAction
  | .modifyColumnType table column newType fillWith _ timezone =>
      .modifyColumnType table column newType fillWith (some strategy) timezone
  | a => a

def stampTimezone (timezone : String) : MigrationAction → MigrationAction
  | .modifyColumnType table column newType fillWith narrowing _ =>
      .modifyColumnType table column newType fillWith narrowing (some timezone)
  | a => a

def extendMappings (existing mappings : List (String × String)) : List (String × String) :=
  KeyedView.entries Prod.fst (existing ++ mappings)

def stampEnumFill (mappings : List (String × String)) : MigrationAction → MigrationAction
  | .modifyColumnType table column newType fillWith narrowing timezone =>
      .modifyColumnType table column newType
        (some (fillWith.elim mappings (extendMappings · mappings))) narrowing timezone
  | a => a

def stampBackfill (choice : DefaultChoice) : MigrationAction → MigrationAction
  | .modifyColumnDefault table column newDefault backfill =>
      .modifyColumnDefault table column newDefault
        (if choice = .backfill then newDefault else backfill)
  | a => a

/-- The flag is set whatever nullability the action asks for. -/
def stampDeleteNullRows (key : String × String) : MigrationAction → MigrationAction
  | .modifyColumnNullable table column nullable fillWith deleteNullRows =>
      .modifyColumnNullable table column nullable fillWith
        (if table = key.1 ∧ column = key.2 then some true else deleteNullRows)
  | a => a

/-! Their effect on the plan -/

def MigrationPlan.edit (plan : MigrationPlan) (edits : List (Edits.Edit MigrationAction)) :
    MigrationPlan := { plan with actions := Edits.run edits plan.actions }

def applyUniqueAdditionChoice (plan : MigrationPlan) (warning : UniqueAdditionWarning)
    (choice : UniqueAdditionChoice) : MigrationPlan :=
  plan.edit [(warning.actionIndex, stampUnique choice)]

def applyFkOrphanAdditionChoice (plan : MigrationPlan) (warning : FkOrphanAdditionWarning)
    (choice : FkOrphanChoice) : MigrationPlan :=
  plan.edit [(warning.actionIndex, stampFkOrphan choice)]

def applyCheckAdditionChoice (plan : MigrationPlan) (warning : CheckAdditionWarning)
    (choice : CheckViolationChoice) : MigrationPlan :=
  plan.edit [(warning.actionIndex, stampCheck choice)]

def applyPkAdditionChoice (plan : MigrationPlan) (warning : PrimaryKeyAdditionWarning)
    (choice : PrimaryKeyAdditionChoice) : MigrationPlan :=
  plan.edit [(warning.actionIndex, stampPrimaryKey choice)]

def applySequenceExhaustionChoice (plan : MigrationPlan) (warning : SequenceExhaustionWarning)
    (choice : SequenceExhaustionChoice) : MigrationPlan :=
  plan.edit [(warning.actionIndex, stampBigInt warning.column choice)]

/-- Warnings and answers are paired as far as both go. -/
def applyNarrowingStrategiesToPlan (plan : MigrationPlan) (warnings : List TypeNarrowingWarning)
    (strategies : List NarrowingStrategy) : MigrationPlan :=
  plan.edit ((warnings.zip strategies).map fun p => (p.1.actionIndex, stampNarrowing p.2))

def applyTimezoneChoicesToPlan (plan : MigrationPlan) (warnings : List TimezoneConversionWarning)
    (choices : List String) : MigrationPlan :=
  plan.edit ((warnings.zip choices).map fun p => (p.1.actionIndex, stampTimezone p.2))

def applyEnumFillWithToPlan (plan : MigrationPlan)
    (collected : List (Nat × List (String × String))) : MigrationPlan :=
  plan.edit (collected.map fun p => (p.1, stampEnumFill p.2))

def applyDefaultChoice (plan : MigrationPlan) (warning : DefaultChangeWarning)
    (choice : DefaultChoice) : MigrationPlan :=
  plan.edit [(warning.actionIndex, stampBackfill choice)]

/-! What no answer touches -/

def TableConstraint.unanswered : TableConstraint → TableConstraint
  | .primaryKey autoIncrement columns _ => .primaryKey autoIncrement columns .default
  | .unique name columns _ => .unique name columns .default
  | .foreignKey name columns refTable refColumns onDelete onUpdate _ =>
      .foreignKey name columns refTable refColumns onDelete onUpdate .default
  | .check name expr _ => .check name expr .deleteViolatingRows
  | c => c

/-- An action without the fields that answers are put into, and without the types that an
    answer may widen. -/
def MigrationAction.unanswered : MigrationAction → MigrationAction
  | .createTable table columns constraints =>
      .createTable table (columns.map fun c => { c with type := .simple .bigInt }) constraints
  | .addColumn table column _ => .addColumn table column none
  | .modifyColumnType table column _ _ _ _ =>
      .modifyColumnType table column (.simple .bigInt) none none none
  | .modifyColumnNullable table column nullable _ _ =>
      .modifyColumnNullable table column nullable none none
  | .modifyColumnDefault table column newDefault _ =>
      .modifyColumnDefault table column newDefault none
  | .addConstraint table constraint => .addConstraint table constraint.unanswered
  | a => a

def MigrationPlan.questions (plan : MigrationPlan) : List MigrationAction :=
  plan.actions.map (·.unanswered)

theorem widened_unanswered (column : String) (columns : List ColumnDef) :
    (mapFirstColumn column (fun c => { c with type := .simple .bigInt }) columns).map
        (fun c => { c with type := ColumnType.simple .bigInt }) =
      columns.map fun c => { c with type := ColumnType.simple .bigInt } := by
  induction columns with
  | nil => rfl
  | cons c rest ih =>
    unfold mapFirstColumn
    split
    · rfl
    · rw [List.map_cons, List.map_cons, ih]

section Stamps
variable (a : MigrationAction)

theorem unique_unanswered (choice : UniqueAdditionChoice) :
    (stampUnique choice a).unanswered = a.unanswered := by
  unfold stampUnique
  split <;> rfl

theorem fk_orphan_unanswered (choice : FkOrphanChoice) :
    (stampFkOrphan choice a).unanswered = a.unanswered := by
  unfold stampFkOrphan
  split <;> rfl

theorem check_unanswered (choice : CheckViolationChoice) :
    (stampCheck choice a).unanswered = a.unanswered := by
  unfold stampCheck
  split <;> rfl

theorem primary_key_unanswered (choice : PrimaryKeyAdditionChoice) :
    (stampPrimaryKey choice a).unanswered = a.unanswered := by
  unfold stampPrimaryKey
  split <;> rfl

theorem big_int_unanswered (column : String) (choice : SequenceExhaustionChoice) :
    (stampBigInt column choice a).unanswered = a.unanswered := by
  cases a with
  | createTable table columns constraints =>
    cases choice with
    | changeToBigInt =>
      simp only [stampBigInt, MigrationAction.unanswered, widened_unanswered]
    | proceed => rfl
  | modifyColumnType table name newType fillWith narrowing timezone => cases choice <;> rfl
  | _ => rfl

theorem narrowing_unanswered (strategy : NarrowingStrategy) :
    (stampNarrowing strategy a).unanswered = a.unanswered := by
  unfold stampNarrowing
  split <;> rfl

theorem timezone_unanswered (timezone : String) :
    (stampTimezone timezone a).unanswered = a.unanswered := by
  unfold stampTimezone
  split <;> rfl

theorem enum_fill_unanswered (mappings : List (String × String)) :
    (stampEnumFill mappings a).unanswered = a.unanswered := by
  unfold stampEnumFill
  split <;> rfl

theorem backfill_unanswered (choice : DefaultChoice) :
    (stampBackfill choice a).unanswered = a.unanswered := by
  unfold stampBackfill
  split <;> rfl

theorem delete_null_rows_unanswered (key : String × String) :
    (stampDeleteNullRows key a).unanswered = a.unanswered := by
  unfold stampDeleteNullRows
  split <;> rfl

theorem fill_unanswered (fillValues : String × String → Option String) :
    (applyFillWith fillValues a).unanswered = a.unanswered := by
  unfold applyFillWith
  split <;> rfl

end Stamps

theorem edit_questions {plan : MigrationPlan} {edits : List (Edits.Edit MigrationAction)}
    (kept : ∀ e ∈ edits, ∀ a, (e.2 a).unanswered = MigrationAction.unanswered a) :
    (plan.edit edits).questions = plan.questions := Edits.run_view kept plan.actions

end Vespertide
