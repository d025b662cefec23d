import Mathlib
import Vespertide.EnumBalance
import Vespertide.PlanValidation

/-!
The fill values a new plan is asked for, and the fill values its file must have.
Both scans ask for a column that is added without a default; a column that loses
its nullability the validator always asks for, the prompt only where the
baseline has no default.
-/
namespace Vespertide
open Components

local instance lawful_filled_columns : LawfulBEq (String × String) := inferInstance

/-! What is listed -/

section Scans
variable (lowercase : String → String) (plan : MigrationPlan) (baseline : List TableDef)

def PromptCovers : Prop :=
  ∀ i a table column, plan.actions[i]? = some a →
    validateAction a = .error (.missingFillWith table column) →
    ∃ r ∈ findMissingFillWith lowercase plan baseline,
      r.actionIndex = i ∧ r.table = table ∧ r.column = column

def filledPlan (values : String × String → String) : MigrationPlan :=
  applyFillWithToPlan plan fun key =>
    if key ∈ (findMissingFillWith lowercase plan baseline).map fun r => (r.table, r.column) then
      some (values key)
    else none

end Scans

def EnumTextsValid (plan : MigrationPlan) : Prop :=
  ∀ a ∈ plan.actions, ∀ e, validateAction a ≠ .error (.invalidEnumDefault e)

/-- No column that loses its nullability has a default in the baseline. -/
def TightenedWithoutDefault (baseline target : List TableDef) : Prop :=
  ∀ table t u fromDef toDef, tableGet baseline table = some t → tableGet target table = some u →
    columnGet t.columns toDef.name = some fromDef → columnGet u.columns toDef.name = some toDef →
    fromDef.nullable = true → toDef.nullable = false →
    ∀ c, findColumnInSchema baseline table toDef.name = some c → c.default = none

theorem mem_missing {lowercase : String → String} {plan : MigrationPlan}
    {baseline : List TableDef} {r : FillWithRequired} :
    r ∈ findMissingFillWith lowercase plan baseline ↔ ∃ i a, plan.actions[i]? = some a ∧
      missingFillWithForAction lowercase baseline i a = some r := by
  simp only [findMissingFillWith, List.mem_filterMap, Prod.exists, List.mk_mem_zipIdx_iff_getElem?]
  exact exists_comm

theorem missing_entry {lowercase : String → String} {baseline : List TableDef} {i : Nat}
    {a : MigrationAction} {r : FillWithRequired}
    (asked : missingFillWithForAction lowercase baseline i a = some r) : r.actionIndex = i := by
  cases a <;> simp only [missingFillWithForAction, reduceCtorEq] at asked
  · split at asked
    · rw [← Option.some.inj asked]
    · cases asked
  · split at asked
    · split at asked
      · cases asked
      · split at asked <;> rw [← Option.some.inj asked]
    · cases asked

/-! The validator -/

theorem enum_texts_error {table column : String} {type : ColumnType}
    {texts : List (String × String)} {violation : PlanViolation}
    (refused : checkEnumTexts table column type texts = .error violation) :
    ∃ e, violation = .invalidEnumDefault e := by
  unfold checkEnumTexts at refused
  split at refused
  · rename_i name values
    induction texts with
    | nil => cases refused
    | cons text texts ih =>
      rw [List.forM_eq_forM, List.forM_cons] at refused
      cases checked : validateEnumValue name table column text.2 text.1 values with
      | ok u =>
        rw [checked] at refused
        exact ih refused
      | error e =>
        rw [checked] at refused
        exact ⟨e, (Except.error.inj refused).symm⟩
  · cases refused

theorem refused_missing {a : MigrationAction} {table column : String}
    (refused : validateAction a = .error (.missingFillWith table column)) :
    (∃ c, a = .addColumn table c none ∧ c.name = column ∧ c.nullable = false ∧ c.default = none) ∨
    ∃ deleteNullRows, a = .modifyColumnNullable table column false none deleteNullRows ∧
      deleteNullRows.getD false = false := by
  cases a with
  | addColumn name c fillWith =>
    simp only [validateAction] at refused
    split at refused
    · rename_i required
      simp only [Bool.and_eq_true, Bool.not_eq_true', Option.isNone_iff_eq_none] at required
      obtain ⟨rfl, rfl⟩ := PlanViolation.missingFillWith.inj (Except.error.inj refused)
      obtain ⟨⟨required, plain⟩, rfl⟩ := required
      exact .inl ⟨c, rfl, rfl, required, plain⟩
    · obtain ⟨e, other⟩ := enum_texts_error refused
      cases other
  | modifyColumnNullable name col nullable fillWith deleteNullRows =>
    simp only [validateAction] at refused
    split at refused
    · rename_i required
      simp only [Bool.and_eq_true, Bool.not_eq_true', Option.isNone_iff_eq_none] at required
      obtain ⟨rfl, rfl⟩ := PlanViolation.missingFillWith.inj (Except.error.inj refused)
      obtain ⟨⟨rfl, rfl⟩, kept⟩ := required
      exact .inr ⟨deleteNullRows, rfl, kept⟩
    · cases refused
  | modifyColumnType name col newType fillWith strategy timezone =>
    simp only [validateAction] at refused
    split at refused
    · obtain ⟨e, other⟩ := enum_texts_error refused
      cases other
    · cases refused
  | dataMigration sql description =>
    simp only [validateAction] at refused
    split at refused <;> cases refused
  | _ => cases refused

theorem refused_ddl {a : MigrationAction} {keyword statement : String}
    (refused : validateAction a = .error (.dataMigrationContainsDdl keyword statement)) :
    ∃ sql description, a = .dataMigration sql description := by
  cases a with
  | dataMigration sql description => exact ⟨sql, description, rfl⟩
  | addColumn name c fillWith =>
    simp only [validateAction] at refused
    split at refused
    · cases refused
    · obtain ⟨e, other⟩ := enum_texts_error refused
      cases other
  | modifyColumnNullable name col nullable fillWith deleteNullRows =>
    simp only [validateAction] at refused
    split at refused <;> cases refused
  | modifyColumnType name col newType fillWith strategy timezone =>
    simp only [validateAction] at refused
    split at refused
    · obtain ⟨e, other⟩ := enum_texts_error refused
      cases other
    · cases refused
  | _ => cases refused

/-- What the validator asks for is what the prompt asks for, or a column that
    has a default. -/
theorem missing_or_default (lowercase : String → String) (baseline : List TableDef) (i : Nat)
    {a : MigrationAction} {table column : String}
    (refused : validateAction a = .error (.missingFillWith table column)) :
    (∃ r, missingFillWithForAction lowercase baseline i a = some r ∧
      r.table = table ∧ r.column = column) ∨
    ∃ deleteNullRows c, a = .modifyColumnNullable table column false none deleteNullRows ∧
      findColumnInSchema baseline table column = some c ∧ c.default ≠ none := by
  rcases refused_missing refused with ⟨c, rfl, rfl, required, plain⟩ | ⟨deleteNullRows, rfl, kept⟩
  · simp [missingFillWithForAction, required, plain]
  · have looked : ((baseline.find? (·.name = table)).bind fun t =>
        t.columns.find? (·.name = column)) = findColumnInSchema baseline table column := rfl
    cases found : findColumnInSchema baseline table column with
    | none => simp [missingFillWithForAction, kept, looked, found]
    | some c =>
      cases default : c.default with
      | none => simp [missingFillWithForAction, kept, looked, found, default]
      | some d => exact .inr ⟨deleteNullRows, c, rfl, rfl, by simp [default]⟩

theorem default_not_listed (lowercase : String → String) {baseline : List TableDef} (i : Nat)
    {table column : String} {c : ColumnDef}
    (found : findColumnInSchema baseline table column = some c) (default : c.default ≠ none) :
    missingFillWithForAction lowercase baseline i
      (.modifyColumnNullable table column false none none) = none := by
  have looked : ((baseline.find? (·.name = table)).bind fun t =>
      t.columns.find? (·.name = column)) = findColumnInSchema baseline table column := rfl
  obtain ⟨d, given⟩ := Option.ne_none_iff_exists'.mp default
  simp [missingFillWithForAction, looked, found, given]

/-! The plan of a difference -/

theorem nullable_edit_iff {table column : String} {fromDef toDef : ColumnDef} {nullable : Bool}
    {fillWith : Option String} {deleteNullRows : Option Bool} :
    .modifyColumnNullable table column nullable fillWith deleteNullRows ∈
        columnEditsOf table fromDef toDef ↔
      toDef.name = column ∧ toDef.nullable = nullable ∧ fillWith = none ∧ deleteNullRows = none ∧
        fromDef.nullable ≠ toDef.nullable := by
  constructor
  · intro mem
    rcases column_edit_cases mem with ⟨shape, _⟩ | ⟨shape, _⟩ | shape | shape | shape
    · cases shape
    · cases shape
    · obtain ⟨-, rfl, rfl, rfl, rfl⟩ := MigrationAction.modifyColumnNullable.inj shape
      refine ⟨rfl, rfl, rfl, rfl, fun same => ?_⟩
      simp only [columnEditsOf, List.reduceOption_mem_iff, List.mem_cons, List.not_mem_nil,
        or_false] at mem
      rcases mem with change | change | change | change | change
      · simp only [columnTypeChange] at change
        split at change <;> cases change
      · simp only [integerEnumRemapping] at change
        split at change <;> cases change
      · simp [columnNullabilityChange, same] at change
      · simp only [columnDefaultChange] at change
        split at change
        · cases change
        · split at change <;> cases change
      · simp only [columnCommentChange] at change
        split at change <;> cases change
    · cases shape
    · cases shape
  · rintro ⟨rfl, rfl, rfl, rfl, changed⟩
    simp [columnEditsOf, List.reduceOption_mem_iff, columnNullabilityChange, changed]

section Plan
variable {fromSchema toSchema created : List TableDef} {edits : String → List MigrationAction}
  {actions : List MigrationAction} (planned : Planned fromSchema toSchema created edits actions)
include planned

theorem Planned.nullability_iff {table column : String} {nullable : Bool}
    {fillWith : Option String} {deleteNullRows : Option Bool} :
    .modifyColumnNullable table column nullable fillWith deleteNullRows ∈ actions ↔
      ∃ t u fromDef toDef, tableGet fromSchema table = some t ∧ tableGet toSchema table = some u ∧
        columnGet t.columns toDef.name = some fromDef ∧
        columnGet u.columns toDef.name = some toDef ∧ toDef.name = column ∧
        toDef.nullable = nullable ∧ fillWith = none ∧ deleteNullRows = none ∧
        fromDef.nullable ≠ toDef.nullable := by
  rw [planned.attribute_edit_iff rfl]
  simp only [actionTable, MigrationAction.tableName, Option.getD_some, nullable_edit_iff]

end Plan

/-! The prompt and the file -/

theorem filled_missing {fillValues : String × String → Option String} {a : MigrationAction}
    {table column : String}
    (refused : validateAction (applyFillWith fillValues a) =
      .error (.missingFillWith table column)) :
    validateAction a = .error (.missingFillWith table column) ∧ fillValues (table, column) = none := by
  have missing := refused_missing refused
  unfold applyFillWith at missing
  split at missing
  · rcases missing with ⟨c, shape, rfl, _, _⟩ | ⟨_, shape, _⟩
    · obtain ⟨rfl, rfl, unfilled⟩ := MigrationAction.addColumn.inj shape
      exact ⟨by rwa [applyFillWith, shape] at refused, unfilled⟩
    · cases shape
  · rcases missing with ⟨c, shape, _, _, _⟩ | ⟨_, shape, _⟩
    · cases shape
    · obtain ⟨rfl, rfl, rfl, unfilled, rfl⟩ := MigrationAction.modifyColumnNullable.inj shape
      exact ⟨by rwa [applyFillWith, shape] at refused, unfilled⟩
  · rename_i no_addition no_change
    rcases missing with ⟨c, shape, _, _, _⟩ | ⟨_, shape, _⟩
    · exact absurd shape (no_addition _ _)
    · exact absurd shape (no_change _ _ _ _)

theorem filled_data_migration {fillValues : String × String → Option String} {a : MigrationAction}
    {sql : DataMigrationSql} {description : Option String}
    (filled : applyFillWith fillValues a = .dataMigration sql description) :
    a = .dataMigration sql description := by
  unfold applyFillWith at filled
  split at filled
  · cases filled
  · cases filled
  · exact filled

theorem fill_prompt_covers_iff (lowercase : String → String) {baseline target : List TableDef}
    {plan : MigrationPlan} (diffed : diffSchemas baseline target = .ok plan) :
    (PromptCovers lowercase plan baseline ∧
      ∀ values, EnumTextsValid (filledPlan lowercase plan baseline values) →
        validateMigrationPlan (filledPlan lowercase plan baseline values) = .ok ()) ↔
    TightenedWithoutDefault baseline target := by
  obtain ⟨created, edits, planned⟩ := diff_schemas_planned diffed
  constructor
  · rintro ⟨covers, _⟩ table t u fromDef toDef here there from_here to_here loose tight c found
    by_contra default
    have mem : .modifyColumnNullable table toDef.name false none none ∈ plan.actions :=
      planned.nullability_iff.mpr ⟨t, u, fromDef, toDef, here, there, from_here, to_here, rfl,
        tight, rfl, rfl, by simp [loose, tight]⟩
    obtain ⟨i, at_i⟩ := List.mem_iff_getElem?.mp mem
    obtain ⟨r, listed, index, _⟩ := covers i _ table toDef.name at_i rfl
    obtain ⟨i', a', at_i', asked⟩ := mem_missing.mp listed
    obtain rfl := index.symm.trans (missing_entry asked)
    obtain rfl := Option.some.inj (at_i.symm.trans at_i')
    rw [default_not_listed lowercase _ found default] at asked
    cases asked
  · intro tightened
    have covers : PromptCovers lowercase plan baseline := by
      intro i a table column at_i refused
      rcases missing_or_default lowercase baseline i refused with
        ⟨r, asked, named, about⟩ | ⟨deleteNullRows, c, rfl, found, default⟩
      · exact ⟨r, mem_missing.mpr ⟨i, a, at_i, asked⟩, missing_entry asked, named, about⟩
      · obtain ⟨t, u, fromDef, toDef, here, there, from_here, to_here, rfl, tight, _, _, changed⟩ :=
          planned.nullability_iff.mp (List.mem_of_getElem? at_i)
        have loose : fromDef.nullable = true := by simpa [tight] using changed
        exact absurd (tightened table t u fromDef toDef here there from_here to_here loose tight c
          found) default
    refine ⟨covers, fun values valid => ?_⟩
    rw [validate_plan_iff]
    intro a mem
    cases checked : validateAction a with
    | ok u => rfl
    | error violation =>
      obtain ⟨b, listed, rfl⟩ := List.mem_map.mp mem
      cases violation with
      | invalidEnumDefault e => exact absurd checked (valid _ mem e)
      | dataMigrationContainsDdl keyword statement =>
        obtain ⟨sql, description, shape⟩ := refused_ddl checked
        have other := planned.plan_actions b listed
        rw [filled_data_migration shape] at other
        exact other.elim
      | missingFillWith table column =>
        obtain ⟨refused, unfilled⟩ := filled_missing checked
        obtain ⟨i, at_i⟩ := List.mem_iff_getElem?.mp listed
        obtain ⟨r, asked, _, rfl, rfl⟩ := covers i b table column at_i refused
        simp only [ite_eq_right_iff, reduceCtorEq, imp_false] at unfilled
        exact absurd (List.mem_map.mpr ⟨r, asked, rfl⟩) unfilled

section Emails

def emailColumn (nullable : Bool) (default : Option DefaultValue) : ColumnDef :=
  ⟨"email", .simple .text, nullable, default, none, none, none, none, none⟩

def emailSchema (nullable : Bool) (default : Option DefaultValue) : List TableDef :=
  [⟨"users", none, [emailColumn nullable default], []⟩]

def tightenEmail : MigrationPlan :=
  ⟨"", none, none, 0, [.modifyColumnNullable "users" "email" false none none]⟩

theorem tightened_email_listed :
    PromptCovers id tightenEmail (emailSchema true none) :=
  ((@fill_prompt_covers_iff id (emailSchema true none) (emailSchema false none) tightenEmail
    (by decide +kernel)).mpr
    (by
      intro _ _ _ _ _ _ _ _ _ _ _ c found
      obtain ⟨t, here, inside⟩ := Option.bind_eq_some_iff.mp found
      obtain rfl := List.mem_singleton.mp (List.mem_of_find?_eq_some here)
      obtain rfl := List.mem_singleton.mp (List.mem_of_find?_eq_some inside)
      rfl)).1

/-- The validator refuses the plan, and nothing is asked for. -/
theorem default_email_unlisted :
    ¬ ∀ (baseline target : List TableDef) (plan : MigrationPlan),
      diffSchemas baseline target = .ok plan → PromptCovers id plan baseline := by
  intro covers
  have listed := covers (emailSchema true (some (.string "'none'")))
    (emailSchema false (some (.string "'none'"))) tightenEmail (by decide +kernel) 0 _ "users"
    "email" rfl rfl
  obtain ⟨r, mem, _⟩ := listed
  have empty : findMissingFillWith id tightenEmail
      (emailSchema true (some (.string "'none'"))) = [] := by decide +kernel
  rw [empty] at mem
  cases mem

end Emails

end Vespertide
