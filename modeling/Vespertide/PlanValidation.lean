import Vespertide.EnumLiteral

/-!
What a plan must carry before it is written: the validator of a migration file,
and the two scans that list the fill values still to be asked for. A large plan
is visited in parallel and sorted back by index, which changes nothing.
-/
namespace Vespertide
open Text

/-! The guard of data migrations -/

def dropThrough (mark : List Char) : List Char → List Char
  | [] => []
  | c :: s =>
      match after mark (c :: s) with
      | some tail => tail
      | none => dropThrough mark s

theorem after_shorter {opening s tail : List Char} (found : after opening s = some tail) :
    tail.length + opening.length = s.length := by
  induction opening generalizing s with
  | nil =>
    obtain rfl := Option.some.inj found
    simp
  | cons p opening ih =>
    cases s with
    | nil => simp [after] at found
    | cons c s =>
      simp only [after] at found
      split at found
      · have rest := ih found
        simp only [List.length_cons]
        omega
      · cases found

theorem drop_through_length (mark s : List Char) : (dropThrough mark s).length ≤ s.length := by
  induction s with
  | nil => simp [dropThrough]
  | cons c s ih =>
    unfold dropThrough
    split
    · rename_i tail found
      have rest := after_shorter found
      omega
    · simp only [List.length_cons]
      omega

/-- White space and comments ahead of the first token. -/
def stripLeadingTrivia (sql : List Char) : List Char :=
  let rest := sql.dropWhile isWhitespace
  match _ : after ['-', '-'] rest with
  | some tail => stripLeadingTrivia (dropThrough ['\n'] tail)
  | none =>
      match _ : after ['/', '*'] rest with
      | some tail => stripLeadingTrivia (dropThrough ['*', '/'] tail)
      | none => rest
termination_by sql.length
decreasing_by
  all_goals
    rename_i found
    have opened := after_shorter found
    have front : rest.length ≤ sql.length := (List.dropWhile_sublist isWhitespace).length_le
    simp only [List.length_cons, List.length_nil] at opened
  · have cut := drop_through_length ['\n'] tail
    omega
  · have cut := drop_through_length ['*', '/'] tail
    omega

def ddlKeywords : List String := ["CREATE", "ALTER", "DROP", "TRUNCATE"]

/-- The keyword is a whole token: `CREATED_AT` is none. -/
def startsWithKeyword (body : List Char) (keyword : String) : Bool :=
  eqIgnoreAsciiCase (body.take keyword.length) keyword.toList &&
    match body[keyword.length]? with
    | none => true
    | some next => !(next.isAlphanum || next = '_')

def leadingDdlKeyword (sql : String) : Option String :=
  ddlKeywords.find? (startsWithKeyword (stripLeadingTrivia sql.toList))

def sqlPreview (sql : String) : String :=
  let words := ((stripLeadingTrivia sql.toList).splitOnP isWhitespace).filter (· ≠ [])
  let collapsed := " ".intercalate (words.map String.ofList)
  if 60 < collapsed.length then String.ofList (collapsed.toList.take 57) ++ "..." else collapsed

def DataMigrationSql.statements : DataMigrationSql → List String
  | .uniform sql => [sql]
  | .perBackend postgres mysql sqlite => [postgres, mysql, sqlite]

def DataMigrationSql.ddlViolation (sql : DataMigrationSql) : Option (String × String) :=
  sql.statements.findSome? fun statement =>
    (leadingDdlKeyword statement).map (·, statement)

/-! The validator -/

inductive PlanViolation where
  | missingFillWith (table column : String)
  | invalidEnumDefault (e : InvalidEnumDefaultError)
  | dataMigrationContainsDdl (keyword statement : String)
  deriving DecidableEq, Repr

/-- One violation is reported bare, several together. -/
inductive PlanError where
  | single (violation : PlanViolation)
  | multiple (violations : List PlanViolation)
  deriving DecidableEq, Repr

/-- The texts of an enum column, each with the kind it is reported as, checked in turn. -/
def checkEnumTexts (table column : String) (type : ColumnType) (texts : List (String × String)) :
    Except PlanViolation Unit :=
  match type with
  | .complex (.enum name values) => texts.forM fun text =>
      match validateEnumValue name table column text.2 text.1 values with
      | .ok () => .ok ()
      | .error e => .error (.invalidEnumDefault e)
  | _ => .ok ()

def validateAction : MigrationAction → Except PlanViolation Unit
  | .addColumn table column fillWith =>
      if !column.nullable && column.default.isNone && fillWith.isNone then
        .error (.missingFillWith table column.name)
      else checkEnumTexts table column.name column.type
        (fillWith.toList.map (·, "fill_with") ++ column.default.toList.map (·.toSql, "default"))
  | .modifyColumnNullable table column nullable fillWith deleteNullRows =>
      if !nullable && fillWith.isNone && !deleteNullRows.getD false then
        .error (.missingFillWith table column)
      else .ok ()
  | .modifyColumnType table column newType fillWith _ _ =>
      match fillWith with
      | some replacements =>
          checkEnumTexts table column newType (replacements.map fun p => (p.2, "fill_with"))
      | none => .ok ()
  | .dataMigration sql _ =>
      match sql.ddlViolation with
      | some (keyword, statement) =>
          .error (.dataMigrationContainsDdl keyword (sqlPreview statement))
      | none => .ok ()
  | _ => .ok ()

def findPlanViolations (plan : MigrationPlan) : List PlanViolation :=
  plan.actions.filterMap fun a =>
    match validateAction a with
    | .ok () => none
    | .error e => some e

def validateMigrationPlan (plan : MigrationPlan) : Except PlanError Unit :=
  match findPlanViolations plan with
  | [] => .ok ()
  | [violation] => .error (.single violation)
  | violations => .error (.multiple violations)

theorem validate_plan_iff (plan : MigrationPlan) :
    validateMigrationPlan plan = .ok () ↔ ∀ a ∈ plan.actions, validateAction a = .ok () := by
  have empty : validateMigrationPlan plan = .ok () ↔ findPlanViolations plan = [] := by
    unfold validateMigrationPlan
    split
    · rename_i found
      simp [found]
    · rename_i found
      simp [found]
    · rename_i some _
      exact iff_of_false (by simp) some
  rw [empty, findPlanViolations, List.filterMap_eq_nil_iff]
  refine forall₂_congr fun a _ => ?_
  split <;> rename_i checked <;> simp [checked]

/-! What is shown of a type -/

def SimpleColumnType.displayStr : SimpleColumnType → String
  | .smallInt => "smallint"
  | .integer => "integer"
  | .bigInt => "bigint"
  | .real => "real"
  | .doublePrecision => "double precision"
  | .text => "text"
  | .boolean => "boolean"
  | .date => "date"
  | .time => "time"
  | .timestamp => "timestamp"
  | .timestamptz => "timestamptz"
  | .interval => "interval"
  | .bytea => "bytea"
  | .uuid => "uuid"
  | .json => "json"
  | .inet => "inet"
  | .cidr => "cidr"
  | .macaddr => "macaddr"
  | .xml => "xml"

def ColumnType.toDisplayString (lowercase : String → String) : ColumnType → String
  | .simple ty => ty.displayStr
  | .complex (.varchar length) => s!"varchar({length})"
  | .complex (.numeric precision scale) => s!"numeric({precision},{scale})"
  | .complex (.char length) => s!"char({length})"
  | .complex (.custom customType) => lowercase customType
  | .complex (.enum name values) =>
      if values.isInteger then s!"enum<{name}> (integer)" else s!"enum<{name}>"

def SimpleColumnType.defaultFillValue : SimpleColumnType → String
  | .smallInt | .integer | .bigInt => "0"
  | .real | .doublePrecision => "0.0"
  | .boolean => "false"
  | .text | .bytea => "''"
  | .date => "'1970-01-01'"
  | .time => "'00:00:00'"
  | .timestamp | .timestamptz => "CURRENT_TIMESTAMP"
  | .interval => "'0'"
  | .uuid => "'00000000-0000-0000-0000-000000000000'"
  | .json => "'\x7b\x7d'"
  | .inet | .cidr => "'0.0.0.0'"
  | .macaddr => "'00:00:00:00:00:00'"
  | .xml => "'<xml/>'"

def ColumnType.defaultFillValue : ColumnType → String
  | .simple ty => ty.defaultFillValue
  | .complex (.numeric _ _) => "0"
  | .complex _ => "''"

def ColumnType.enumVariantNames : ColumnType → Option (List String)
  | .complex (.enum _ values) => some values.variantNames
  | _ => none

/-! The prompts -/

structure FillWithRequired where
  actionIndex : Nat
  table : String
  column : String
  actionType : String
  columnType : String
  defaultValue : String
  enumValues : Option (List String)
  hasForeignKey : Bool
  deriving DecidableEq, Repr

def missingFillWithForAction (lowercase : String → String) (currentSchema : List TableDef)
    (idx : Nat) : MigrationAction → Option FillWithRequired
  | .addColumn table column fillWith =>
      if !column.nullable && column.default.isNone && fillWith.isNone then
        some ⟨idx, table, column.name, "AddColumn", column.type.toDisplayString lowercase,
          column.type.defaultFillValue, column.type.enumVariantNames, false⟩
      else none
  | .modifyColumnNullable table column nullable fillWith deleteNullRows =>
      if !nullable && fillWith.isNone && !deleteNullRows.getD false then
        let tableDef := currentSchema.find? (·.name = table)
        let colDef := tableDef.bind fun t => t.columns.find? (·.name = column)
        let hasForeignKey := tableDef.any fun t => t.constraints.any fun c =>
          match c with
          | .foreignKey _ columns _ _ _ _ _ => column ∈ columns
          | _ => false
        -- a default is taken for the value to use, so nothing is asked
        if colDef.any (·.default.isSome) then none
        else
          match colDef with
          | some c => some ⟨idx, table, column, "ModifyColumnNullable",
              c.type.toDisplayString lowercase, c.type.defaultFillValue, c.type.enumVariantNames,
              hasForeignKey⟩
          | none => some ⟨idx, table, column, "ModifyColumnNullable", column, "''", none,
              hasForeignKey⟩
      else none
  | _ => none

def findMissingFillWith (lowercase : String → String) (plan : MigrationPlan)
    (currentSchema : List TableDef) : List FillWithRequired :=
  plan.actions.zipIdx.filterMap fun (a, idx) =>
    missingFillWithForAction lowercase currentSchema idx a

structure EnumFillWithRequired where
  actionIndex : Nat
  table : String
  column : String
  removedValues : List String
  remainingValues : List String
  deriving DecidableEq, Repr

/-- Every value of the new type is offered, a new one as well as one that stays. -/
def missingEnumFillWithForAction (currentSchema : List TableDef) (idx : Nat) :
    MigrationAction → Option EnumFillWithRequired
  | .modifyColumnType table column newType fillWith _ _ =>
      let oldType := (findColumnInSchema currentSchema table column).map ColumnDef.type
      match oldType, newType with
      | some (.complex (.enum _ (.string oldValues))), .complex (.enum _ (.string newValues)) =>
          let removed := oldValues.filter (· ∉ newValues)
          let uncovered := removed.filter fun r => (fillWith.getD []).all (·.1 ≠ r)
          if uncovered = [] then none else some ⟨idx, table, column, uncovered, newValues⟩
      | _, _ => none
  | _ => none

def findMissingEnumFillWith (plan : MigrationPlan) (currentSchema : List TableDef) :
    List EnumFillWithRequired :=
  plan.actions.zipIdx.filterMap fun (a, idx) => missingEnumFillWithForAction currentSchema idx a

/-- Only a value that is missing is filled in. -/
def applyFillWith (fillValues : String × String → Option String) :
    MigrationAction → MigrationAction
  | .addColumn table column none => .addColumn table column (fillValues (table, column.name))
  | .modifyColumnNullable table column nullable none deleteNullRows =>
      .modifyColumnNullable table column nullable (fillValues (table, column)) deleteNullRows
  | a => a

def applyFillWithToPlan (plan : MigrationPlan) (fillValues : String × String → Option String) :
    MigrationPlan := { plan with actions := plan.actions.map (applyFillWith fillValues) }

end Vespertide
