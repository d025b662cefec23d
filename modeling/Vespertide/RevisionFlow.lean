import Mathlib
import Vespertide.CascadeReach
import Vespertide.CheckStrengthening
import Vespertide.CheckTypeMismatch
import Vespertide.ConstraintTypeChanges
import Vespertide.DanglingDrops
import Vespertide.DropResolution
import Vespertide.EnumHistory
import Vespertide.FillStage
import Vespertide.Recreation

/-!
The revision command, from the models and the recorded plans to the plan that is
written. Its checks come first and its questions later, so what is checked has to
survive every answer.
-/
namespace Vespertide
open Dialogue TypeChanges

variable {σ : Type}

/-! The command -/

/-- The errors, kept as the data they are formatted from. -/
inductive RevisionError where
  | planning (e : PlannerError)
  | schemaReconstruction (e : PlannerError)
  | dropResolution (e : DropResolutionError)
  | danglingForeignKeys (drops : List DanglingFkDrop)
  | constraintChanges (changes : List ConstraintTypeChanged) (removals : List PrimaryKeyRemoved)
  | fkRequiresNullable (columns : List AddColumnWithFkRequiresNullable)
  | prompt (message : String)

inductive Stop where
  | unchanged
  | cancelled
  | failed (e : RevisionError)

/-- A question that is declined cancels the command. -/
structure RevisionPromptFns (σ : Type) where
  recreate : List RecreateTableRequired → Asking σ String Bool
  deleteNullRows : String → String → Asking σ String Bool
  fillWith : String → String → String → Asking σ String String
  enumQuoted : String → String → List String → Asking σ String String
  enumBare : EnumFillWithRequired → String → Option String → List String → Asking σ String String
  fkPolicyChange : List FkPolicyChangeWarning → Asking σ String Bool
  typeNarrowing : List TypeNarrowingWarning → Asking σ String (Option (List NarrowingStrategy))
  timezoneConversion :
    List TimezoneConversionWarning → Asking σ String (Option (List String))
  remapEnumValues : MigrationPlan → Asking σ String Bool
  dropResolution : DropResolution → Asking σ String (Option DropChoice)
  defaultChange : DefaultChangeWarning → Asking σ String (Option DefaultChoice)
  uniqueAddition : UniqueAdditionWarning → Asking σ String (Option UniqueAdditionChoice)
  fkOrphanAddition : FkOrphanAdditionWarning → Asking σ String (Option FkOrphanChoice)
  checkAddition : CheckAdditionWarning → Asking σ String (Option CheckViolationChoice)
  pkAddition : PrimaryKeyAdditionWarning → Asking σ String (Option PrimaryKeyAdditionChoice)
  cascadeReach : CascadeReachWarning → Asking σ String (Option Unit)
  sequenceExhaustion :
    SequenceExhaustionWarning → Asking σ String (Option SequenceExhaustionChoice)
  checkStrengthening : CheckStrengtheningWarning → Asking σ String (Option Unit)
  checkTypeMismatch : CheckTypeMismatchWarning → Asking σ String (Option Unit)

def prompted {α : Type} (x : Asking σ String α) : Asking σ Stop α :=
  within (fun message => .failed (.prompt message)) x

def confirmed {α : Type} (x : Asking σ String (Option α)) : Asking σ Stop α := do
  match ← prompted x with
  | some choice => pure choice
  | none => breakOff .cancelled

def agreed (x : Asking σ String Bool) : Asking σ Stop Unit := do
  if ← prompted x then pure () else breakOff .cancelled

/-- Every warning is asked about in turn, and each answer is put into the plan. -/
def askEach {W C : Type} (promptFn : W → Asking σ String (Option C))
    (put : MigrationPlan → W → C → MigrationPlan) (warnings : List W) (plan : MigrationPlan) :
    Asking σ Stop MigrationPlan :=
  warnings.foldlM (fun plan w => put plan w <$> confirmed (promptFn w)) plan

/-- An acknowledgement changes nothing. -/
def acknowledged {W C : Type} (plan : MigrationPlan) (_ : W) (_ : C) : MigrationPlan := plan

section Stages
variable (prompts : RevisionPromptFns σ)

def recreateStage (currentModels : List TableDef) (plan : MigrationPlan) :
    Asking σ Stop MigrationPlan :=
  let required := findNonNullableFkAddColumns plan currentModels
  if required = [] then pure plan
  else do
    let answer ← prompted (prompts.recreate required)
    settled (fun message => .failed (.prompt message))
      (handleRecreateRequirements plan currentModels fun _ => .ok answer)

def planStage (currentModels : List TableDef) (appliedPlans : List MigrationPlan) :
    Asking σ Stop (MigrationPlan × List TableDef) := do
  let plan ← settled (fun e => .failed (.planning e)) (planNextMigration currentModels appliedPlans)
  let plan ← recreateStage prompts currentModels plan
  if plan.actions = [] then breakOff .unchanged
  else do
    let baseline ← settled (fun e => .failed (.schemaReconstruction e))
      (schemaFromPlans appliedPlans)
    pure (plan, baseline)

variable (lowercase displayFloat : String → String) (levenshtein : String → String → Nat)
  (baseline : List TableDef) (plan : MigrationPlan)

def dropStage : Asking σ Stop MigrationPlan := do
  let resolutions := findDropResolutions lowercase plan baseline
  let chosen ← resolutions.foldlM (fun chosen r =>
    (fun choice => chosen ++ [(r, choice)]) <$> confirmed (prompts.dropResolution r)) []
  let actions ← settled (fun e => .failed (.dropResolution e))
    (applyDropResolutions baseline chosen plan.actions)
  pure { plan with actions }

def refusals : Except RevisionError Unit :=
  if findDanglingFkDrops plan baseline ≠ [] then
    .error (.danglingForeignKeys (findDanglingFkDrops plan baseline))
  else if findConstraintTypeChanges plan baseline ≠ [] ∨ findPrimaryKeyRemovals plan ≠ [] then
    .error (.constraintChanges (findConstraintTypeChanges plan baseline)
      (findPrimaryKeyRemovals plan))
  else .ok ()

def additionStage : Asking σ Stop MigrationPlan := do
  let plan ← askEach prompts.uniqueAddition applyUniqueAdditionChoice
    (findUniqueAdditions plan baseline) plan
  settled (fun e => .failed e) (if findAddcolumnFkNullableViolations plan = [] then .ok ()
    else .error (.fkRequiresNullable (findAddcolumnFkNullableViolations plan)))
  let plan ← askEach prompts.fkOrphanAddition applyFkOrphanAdditionChoice
    (findFkOrphanAdditions plan baseline) plan
  let plan ← askEach prompts.checkAddition applyCheckAdditionChoice
    (findCheckAdditions plan baseline) plan
  askEach prompts.pkAddition applyPkAdditionChoice (findPrimaryKeyAdditions plan baseline) plan

def reviewStage : Asking σ Stop MigrationPlan := do
  let plan ← askEach prompts.cascadeReach acknowledged
    (findCascadeReachViolations plan baseline) plan
  let plan ← askEach prompts.sequenceExhaustion applySequenceExhaustionChoice
    (findSequenceExhaustionRisks plan baseline) plan
  let plan ← askEach prompts.checkStrengthening acknowledged
    (findCheckStrengthenings plan baseline) plan
  askEach prompts.checkTypeMismatch acknowledged
    (findCheckTypeMismatches displayFloat plan baseline) plan

def confirmStage : Asking σ Stop Unit := do
  let warnings := findFkPolicyChanges plan
  if warnings = [] then agreed (prompts.remapEnumValues plan)
  else do
    agreed (prompts.fkPolicyChange warnings)
    agreed (prompts.remapEnumValues plan)

def narrowingStage : Asking σ Stop MigrationPlan :=
  let warnings := findTypeNarrowings lowercase plan baseline
  if warnings = [] then pure plan
  else applyNarrowingStrategiesToPlan plan warnings <$> confirmed (prompts.typeNarrowing warnings)

/-- A conversion that has a time zone already is not asked about. -/
def timezoneStage : Asking σ Stop MigrationPlan :=
  let warnings := (findTimezoneConversions plan baseline).filter (·.currentTimezone.isNone)
  if warnings = [] then pure plan
  else applyTimezoneChoicesToPlan plan warnings <$> confirmed (prompts.timezoneConversion warnings)

def defaultStage : Asking σ Stop MigrationPlan :=
  askEach prompts.defaultChange applyDefaultChoice (findDefaultChanges plan baseline) plan

end Stages

structure RevisionArgs where
  message : String
  fillWith : List String
  deleteNullRows : List String
  deriving Repr

/-- The identifier and the time are drawn when the plan is finished. -/
def finishPlan (message uuid now : String) (plan : MigrationPlan) : MigrationPlan :=
  { plan with id := uuid, comment := some message, createdAt := plan.createdAt.or (some now) }

def cmdRevisionCore (lowercase displayFloat : String → String)
    (levenshtein : String → String → Nat) (prompts : RevisionPromptFns σ)
    (uuid now : String) (currentModels : List TableDef) (appliedPlans : List MigrationPlan)
    (args : RevisionArgs) : Asking σ Stop MigrationPlan := do
  let (plan, baseline) ← planStage prompts currentModels appliedPlans
  let plan ← dropStage prompts lowercase baseline plan
  settled (fun e => .failed e) (refusals baseline plan)
  let plan ← additionStage prompts baseline plan
  let plan ← reviewStage prompts displayFloat baseline plan
  let plan ← prompted (fillStage lowercase args.fillWith args.deleteNullRows
    prompts.deleteNullRows prompts.fillWith prompts.enumQuoted baseline plan)
  let plan ← prompted (handleMissingEnumFillWith levenshtein prompts.enumBare baseline plan)
  confirmStage prompts plan
  let plan ← narrowingStage prompts lowercase baseline plan
  let plan ← timezoneStage prompts baseline plan
  let plan ← defaultStage prompts baseline plan
  pure (finishPlan args.message uuid now plan)

end Vespertide
