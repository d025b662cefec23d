import Vespertide.CheckContradiction
import Vespertide.ColumnView
import Vespertide.PlanWarnings

/-!
Literals that a CHECK compares with a column of another type. The types are those
of the baseline, overwritten by the plan: with no renaming in the plan they are the
types that its replay gives the columns.
-/
namespace Vespertide

/-! Types -/

def SimpleColumnType.modelName : SimpleColumnType → String
  | .smallInt => "small_int"
  | .integer => "integer"
  | .bigInt => "big_int"
  | .real => "real"
  | .doublePrecision => "double_precision"
  | .text => "text"
  | .boolean => "boolean"
  | .date => "date"
  | .time => "time"
  | .timestamp => "timestamp"
  | .timestamptz => "timestamptz"
  | .interval => "interval"
  | .bytea => "bytea"
  | .uuid => "uuid"
  | .json => "json"
  | .inet => "inet"
  | .cidr => "cidr"
  | .macaddr => "macaddr"
  | .xml => "xml"

def ColumnType.displayLabel : ColumnType → String
  | .simple ty => ty.modelName
  | .complex (.varchar length) => s!"varchar({length})"
  | .complex (.char length) => s!"char({length})"
  | .complex (.numeric precision scale) => s!"numeric({precision}, {scale})"
  | .complex (.custom customType) => s!"custom({customType})"
  | .complex (.enum name _) => s!"enum({name})"

inductive LiteralKind where
  | integer | float | string | bool | null
  deriving DecidableEq, Repr

def CheckLiteral.kind : CheckLiteral → LiteralKind
  | .integer _ => .integer
  | .float _ => .float
  | .string _ => .string
  | .bool _ => .bool
  | .null => .null

def literalKindName (lit : CheckLiteral) : String :=
  match lit.kind with
  | .integer => "Integer"
  | .float => "Float"
  | .string => "String"
  | .bool => "Bool"
  | .null => "Null"

/-- What each simple type refuses, of a literal that is not `NULL`. -/
def SimpleColumnType.refuses : SimpleColumnType → CheckLiteral → Bool
  | .smallInt, lit | .integer, lit | .bigInt, lit | .real, lit | .doublePrecision, lit =>
      lit.kind = .string ∨ lit.kind = .bool
  | .boolean, .integer n => n ≠ 0 ∧ n ≠ 1
  | .boolean, lit => lit.kind = .float ∨ lit.kind = .string
  | .bytea, lit => lit.kind = .bool
  | .json, _ => false
  | _, lit => lit.kind ≠ .string

def ComplexColumnType.refuses : ComplexColumnType → CheckLiteral → Bool
  | .varchar _, lit | .char _, lit | .enum _ (.string _), lit => lit.kind ≠ .string
  | .numeric _ _, lit => lit.kind = .string ∨ lit.kind = .bool
  | .enum _ (.integer _), lit => lit.kind ≠ .integer
  | .custom _, _ => false

/-- Anything that some backend may coerce passes. -/
def isDefinitelyMismatch (colType : ColumnType) (lit : CheckLiteral) : Bool :=
  match lit with
  | .null => false
  | lit =>
      match colType with
      | .simple simple => simple.refuses lit
      | .complex complex => complex.refuses lit

/-! The types by table and column -/

/-- The last write of a column wins. -/
abbrev ColumnTypeMap := String → String → Option ColumnType

def ColumnTypeMap.insert (m : ColumnTypeMap) (table column : String) (ty : ColumnType) :
    ColumnTypeMap :=
  fun t c => if t = table ∧ c = column then some ty else m t c

def insertColumns (table : String) (m : ColumnTypeMap) (columns : List ColumnDef) :
    ColumnTypeMap :=
  columns.foldl (fun m c => m.insert table c.name c.type) m

def insertAction (m : ColumnTypeMap) : MigrationAction → ColumnTypeMap
  | .createTable table columns _ => insertColumns table m columns
  | .addColumn table column _ => m.insert table column.name column.type
  | .modifyColumnType table column newType _ _ _ => m.insert table column newType
  | _ => m

def baselineTypes (baseline : List TableDef) : ColumnTypeMap :=
  baseline.foldl (fun m t => insertColumns t.name m t.columns) fun _ _ => none

def buildColumnTypeMap (plan : MigrationPlan) (baseline : List TableDef) : ColumnTypeMap :=
  plan.actions.foldl insertAction (baselineTypes baseline)

/-! The scan -/

structure CheckTypeMismatchWarning where
  actionIndex : Nat
  table : String
  constraintName : String
  column : String
  columnTypeLabel : String
  literalText : String
  literalKind : String
  expr : String
  deriving DecidableEq, Repr

mutual

/-- The columns an expression compares with literals, at any depth, in the order of the text. -/
def CheckExpr.comparisons : CheckExpr → List (String × CheckLiteral)
  | .compare column _ value => [(column, value)]
  | .in column values _ => values.map (column, ·)
  | .between column low high _ => [(column, low), (column, high)]
  | .and parts => comparisonsOf parts
  | .or parts => comparisonsOf parts
  | .not inner => inner.comparisons
  | .isNull .. | .unparseable => []
termination_by structural expr => expr

def comparisonsOf : List CheckExpr → List (String × CheckLiteral)
  | [] => []
  | part :: rest => part.comparisons ++ comparisonsOf rest
termination_by structural parts => parts

end

section Scan
variable (displayFloat : String → String) (types : ColumnTypeMap)

def checkOne (actionIndex : Nat) (table checkName expr : String) (colType : ColumnType)
    (comparison : String × CheckLiteral) : Option CheckTypeMismatchWarning :=
  if isDefinitelyMismatch colType comparison.2 then
    some ⟨actionIndex, table, checkName, comparison.1, colType.displayLabel,
      comparison.2.displayValue displayFloat, literalKindName comparison.2, expr⟩
  else none

/-- A column without a known type passes. -/
def scanCheck (actionIndex : Nat) (table checkName expr : String) :
    List CheckTypeMismatchWarning :=
  (parseCheckExpr expr).comparisons.filterMap fun comparison =>
    (types table comparison.1).bind fun colType =>
      checkOne displayFloat actionIndex table checkName expr colType comparison

def checksBrought : MigrationAction → List (String × TableConstraint)
  | .createTable table _ constraints => constraints.map (table, ·)
  | .addConstraint table constraint => [(table, constraint)]
  | .replaceConstraint table _ new => [(table, new)]
  | _ => []

def scanConstraint (actionIndex : Nat) :
    String × TableConstraint → List CheckTypeMismatchWarning
  | (table, .check name expr _) => scanCheck displayFloat types actionIndex table name expr
  | _ => []

def mismatchesUnder (plan : MigrationPlan) : List CheckTypeMismatchWarning :=
  plan.actions.zipIdx.flatMap fun (action, idx) =>
    (checksBrought action).flatMap (scanConstraint displayFloat types idx)

end Scan

def findCheckTypeMismatches (displayFloat : String → String) (plan : MigrationPlan)
    (baseline : List TableDef) : List CheckTypeMismatchWarning :=
  mismatchesUnder displayFloat (buildColumnTypeMap plan baseline) plan

/-! What the scan reads of a type -/

/-- The type without the values of an integer enum, which a remapping changes. -/
def ColumnType.withoutValues : ColumnType → ColumnType
  | .complex (.enum name (.integer _)) => .complex (.enum name (.integer []))
  | ty => ty

theorem remap_type_values (mapping : List (Int × Int)) (ty : ColumnType) :
    (remapType mapping ty).withoutValues = ty.withoutValues := by
  unfold remapType
  split <;> rfl

theorem mismatch_values (ty : ColumnType) (lit : CheckLiteral) :
    isDefinitelyMismatch ty.withoutValues lit = isDefinitelyMismatch ty lit := by
  unfold ColumnType.withoutValues
  split
  · cases lit <;> rfl
  · rfl

theorem label_values (ty : ColumnType) : ty.withoutValues.displayLabel = ty.displayLabel := by
  unfold ColumnType.withoutValues
  split <;> rfl

theorem check_one_alike {displayFloat : String → String} {idx : Nat} {table name expr : String}
    {ty ty' : ColumnType} (alike : ty.withoutValues = ty'.withoutValues)
    (comparison : String × CheckLiteral) :
    checkOne displayFloat idx table name expr ty comparison =
      checkOne displayFloat idx table name expr ty' comparison := by
  simp only [checkOne, ← mismatch_values ty, ← mismatch_values ty', ← label_values ty,
    ← label_values ty', alike]

/-! The map along a replay -/

def ColumnDef.typed (c : ColumnDef) : String × ColumnType := (c.name, c.type.withoutValues)

def TypesKnown (m : ColumnTypeMap) (name : String) (columns : List ColumnDef) : Prop :=
  ∀ p ∈ columns.map ColumnDef.typed, (m name p.1).map ColumnType.withoutValues = some p.2

theorem known_column {m : ColumnTypeMap} {name : String} {columns : List ColumnDef}
    (known : TypesKnown m name columns) {c : ColumnDef} (mem : c ∈ columns) :
    (m name c.name).map ColumnType.withoutValues = some c.type.withoutValues :=
  known c.typed (List.mem_map_of_mem mem)

theorem insert_own (m : ColumnTypeMap) (table column : String) (ty : ColumnType) :
    m.insert table column ty table column = some ty := by simp [ColumnTypeMap.insert]

theorem insert_other (m : ColumnTypeMap) {table column name c : String} (ty : ColumnType)
    (apart : name ≠ table ∨ c ≠ column) : m.insert table column ty name c = m name c := by
  simp only [ColumnTypeMap.insert, ite_eq_right_iff, and_imp]
  rintro rfl rfl
  simp at apart

theorem insert_columns_other (m : ColumnTypeMap) {table name : String} (apart : name ≠ table)
    (columns : List ColumnDef) : insertColumns table m columns name = m name := by
  unfold insertColumns
  induction columns generalizing m with
  | nil => rfl
  | cons d rest ih =>
    rw [List.foldl_cons, ih]
    funext c
    exact insert_other m d.type (.inl apart)

theorem insert_columns_absent (m : ColumnTypeMap) {table c : String} {columns : List ColumnDef}
    (absent : ∀ d ∈ columns, d.name ≠ c) : insertColumns table m columns table c = m table c := by
  unfold insertColumns
  induction columns generalizing m with
  | nil => rfl
  | cons d rest ih =>
    obtain ⟨here, later⟩ := List.forall_mem_cons.mp absent
    rw [List.foldl_cons, ih _ later]
    exact insert_other m d.type (.inr here.symm)

theorem insert_columns_known (m : ColumnTypeMap) (table : String) {columns : List ColumnDef}
    (nodup : (columns.map (·.name)).Nodup) :
    TypesKnown (insertColumns table m columns) table columns := by
  intro p typed
  obtain ⟨c, mem, rfl⟩ := List.mem_map.mp typed
  clear typed
  induction columns generalizing m with
  | nil => cases mem
  | cons d rest ih =>
    obtain ⟨fresh, tail⟩ := List.nodup_cons.mp nodup
    rcases List.mem_cons.mp mem with rfl | later
    · have others : ∀ e ∈ rest, e.name ≠ c.name :=
        fun e there same => fresh (List.mem_map.mpr ⟨e, there, same⟩)
      have own : insertColumns table m (c :: rest) table c.name = some c.type := by
        rw [insertColumns, List.foldl_cons]
        exact (insert_columns_absent _ others).trans (insert_own m table c.name c.type)
      simp [ColumnDef.typed, own]
    · exact ih (m.insert table d.name d.type) tail later

def isRenaming : MigrationAction → Bool
  | .renameTable _ _ => true
  | .renameColumn _ _ _ => true
  | _ => false

theorem insert_action_other (m : ColumnTypeMap) {a : MigrationAction} {name : String}
    (apart : name ≠ actionTable a) : insertAction m a name = m name := by
  cases a with
  | createTable table columns constraints => exact insert_columns_other m apart columns
  | addColumn table column fillWith =>
    funext c
    exact insert_other m column.type (.inl apart)
  | modifyColumnType table column newType fillWith strategy timezone =>
    funext c
    exact insert_other m newType (.inl apart)
  | _ => rfl

theorem edited_typed {f : ColumnDef → ColumnDef} (kept : ∀ c, (f c).typed = c.typed)
    {table column : String} {t u : TableDef}
    (step : (onColumn table column f t).toOption = some u) :
    u.columns.map ColumnDef.typed = t.columns.map ColumnDef.typed := by
  obtain rfl := Outcome.to_option_state step
  unfold onColumn
  split
  · exact mapped_first_keeps ColumnDef.typed kept column t.columns
  · rfl

theorem cleared_typed (table : String) (constraint : TableConstraint) (columns : List ColumnDef) :
    (clearInlineConstraintFields table constraint columns).map ColumnDef.typed =
      columns.map ColumnDef.typed := by
  have read : ColumnDef.typed = ColumnDef.typed ∘ ColumnDef.stripInline := rfl
  rw [read, ← List.map_map, cleared_attributes, List.map_map]

section Step
variable {m : ColumnTypeMap} {t u : TableDef} {a : MigrationAction}
  (edit : isEdit a = true) (renames : isRenaming a = false) (step : editStep a t = some u)
  (nodup : t.columnNames.Nodup) (known : TypesKnown m (actionTable a) t.columns)
include edit renames step nodup known

/-- What an edit does not write keeps its type, what it writes is in the map. -/
theorem edit_known : TypesKnown (insertAction m a) (actionTable a) u.columns := by
  cases a with
  | addColumn table column fillWith =>
    simp only [editStep, tableEdit, addColumnTo] at step
    split at step
    · cases step
    · rename_i absent
      have fresh : ∀ c ∈ t.columns, c.name ≠ column.name := by simpa using absent
      split at step
      · cases step
      · rename_i normal normalised
        obtain rfl := Outcome.to_option_state step
        obtain rfl := normalize_value normalised
        intro p mem
        simp only [Outcome.ok, List.map_append, List.mem_append, List.map_cons, List.map_nil,
          List.mem_singleton, List.mem_map] at mem
        rcases mem with ⟨c, mem, rfl⟩ | rfl
        · rw [insertAction, ColumnDef.typed, insert_other m column.type (.inr (fresh c mem))]
          exact known_column known mem
        · simp [insertAction, ColumnDef.typed, actionTable, MigrationAction.tableName, insert_own]
  | deleteColumn table column =>
    obtain rfl := Outcome.to_option_state step
    intro p typed
    obtain ⟨c, mem, rfl⟩ := List.mem_map.mp typed
    have kept : c ∈ t.columns := by
      clear typed
      simp only [tableEdit, deleteColumnFrom] at mem
      split at mem <;> exact (List.mem_filter.mp mem).1
    exact known_column known kept
  | modifyColumnType table column newType fillWith strategy timezone =>
    obtain rfl := Outcome.to_option_state step
    intro p mem
    simp only [editStep, tableEdit, onColumn] at step mem ⊢
    split at mem
    · simp only [Outcome.ok, map_first_column nodup, List.map_map, List.mem_map,
        Function.comp] at mem
      obtain ⟨c, mem, rfl⟩ := mem
      by_cases own : c.name = column
      · simp [own, insertAction, ColumnDef.typed, actionTable, MigrationAction.tableName,
          insert_own]
      · simp only [own, if_false, ColumnDef.typed, insertAction]
        rw [insert_other m newType (.inr own)]
        exact known_column known mem
    · rename_i absent
      simp [absent, Outcome.fail, Outcome.toOption] at step
  | modifyColumnNullable table column nullable fillWith deleteNullRows =>
    rw [TypesKnown, edited_typed (f := fun c => { c with nullable }) (fun _ => rfl) step]
    exact known
  | modifyColumnDefault table column newDefault backfill =>
    rw [TypesKnown, edited_typed (f := fun c => { c with default := newDefault.map .string })
      (fun _ => rfl) step]
    exact known
  | modifyColumnComment table column newComment =>
    rw [TypesKnown, edited_typed (f := fun c => { c with comment := newComment })
      (fun _ => rfl) step]
    exact known
  | remapEnumValues table column mapping =>
    have kept : ∀ c : ColumnDef,
        ({ c with type := remapType mapping c.type } : ColumnDef).typed = c.typed :=
      fun c => by simp [ColumnDef.typed, remap_type_values]
    rw [TypesKnown, edited_typed kept step]
    exact known
  | addConstraint table constraint =>
    obtain rfl := Outcome.to_option_state step
    have same : (tableEdit (.addConstraint table constraint) t).state.columns = t.columns := by
      simp only [tableEdit, addConstraintTo, Outcome.ok]
      split <;> rfl
    rw [same]
    exact known
  | removeConstraint table constraint =>
    obtain rfl := Outcome.to_option_state step
    rw [TypesKnown]
    simp only [tableEdit, removeConstraintFrom, Outcome.ok, cleared_typed]
    exact known
  | replaceConstraint table old new =>
    obtain rfl := Outcome.to_option_state step
    simp only [tableEdit, replaceConstraintIn]
    split
    · rw [TypesKnown]
      simp only [Outcome.ok, cleared_typed]
      exact known
    · exact known
  | renameColumn table old new => cases renames
  | _ => cases edit

end Step

def SchemaKnown (m : ColumnTypeMap) (schema : Schema) : Prop :=
  ∀ name t, tableAt schema name = some t → TypesKnown m name t.columns

theorem schema_known_step {m : ColumnTypeMap} {s s' : Schema} {a : MigrationAction}
    (names : TableNamesNodup s) (distinct : DistinctColumns s) (renames : isRenaming a = false)
    (brings : BringsDistinct a) (known : SchemaKnown m s)
    (ok : (applyAction s a).toExcept = .ok s') : SchemaKnown (insertAction m a) s' := by
  by_cases is_local : isLocal a = true
  · obtain ⟨t', stepped, updated⟩ := local_step names is_local ok
    intro name u found
    rw [updated] at found
    by_cases own : name = actionTable a
    · subst own
      obtain rfl : t' = some u := by simpa using found
      by_cases edit : isEdit a = true
      · cases here : tableAt s (actionTable a) with
        | none =>
          rw [here, step_table_missing edit] at stepped
          cases stepped
        | some t =>
          rw [here, step_table_edit edit] at stepped
          obtain ⟨u', step, same⟩ := Option.map_eq_some_iff.mp stepped
          obtain rfl := Option.some.inj same
          exact edit_known edit renames step (distinct t (table_at_name here).1) (known _ t here)
      · cases a with
        | createTable table columns constraints =>
          simp only [stepTable] at stepped
          split at stepped
          · cases stepped
          · split at stepped
            · rename_i normal normalised
              obtain rfl := Option.some.inj (Option.some.inj stepped)
              obtain rfl := normalize_value normalised
              exact insert_columns_known m table brings
            · cases stepped
        | deleteTable table =>
          simp only [stepTable] at stepped
          split at stepped <;> cases stepped
        | renameTable old new => cases renames
        | _ => simp [isEdit, is_local] at edit
    · rw [Function.update_of_ne own] at found
      rw [TypesKnown, insert_action_other m own]
      exact known name u found
  · cases a with
    | renameTable old new => cases renames
    | rawSql sql =>
      obtain rfl := Except.ok.inj ok
      exact known
    | dataMigration sql description =>
      obtain rfl := Except.ok.inj ok
      exact known
    | _ => simp [isLocal] at is_local

theorem schema_known_run {m : ColumnTypeMap} {s s' : Schema} {actions : List MigrationAction}
    (names : TableNamesNodup s) (distinct : DistinctColumns s)
    (steady : ∀ a ∈ actions, isRenaming a = false ∧ BringsDistinct a) (known : SchemaKnown m s)
    (applied : applyActions s actions = .ok s') :
    SchemaKnown (actions.foldl insertAction m) s' := by
  induction actions generalizing m s with
  | nil =>
    obtain rfl := Except.ok.inj applied
    exact known
  | cons a rest ih =>
    obtain ⟨⟨renames, brings⟩, later⟩ := List.forall_mem_cons.mp steady
    rw [apply_actions_cons] at applied
    cases stepped : (applyAction s a).toExcept with
    | error e =>
      rw [stepped] at applied
      cases applied
    | ok next =>
      rw [stepped] at applied
      have next_distinct : DistinctColumns next :=
        (to_except_ok.mp stepped).2 ▸ action_distinct distinct brings
      exact ih (apply_action_nodup names stepped) next_distinct later
        (schema_known_step names distinct renames brings known stepped) applied

theorem baseline_known {baseline : Schema} (names : TableNamesNodup baseline)
    (distinct : DistinctColumns baseline) : SchemaKnown (baselineTypes baseline) baseline := by
  have from_map : ∀ m : ColumnTypeMap, ∀ t ∈ baseline, TypesKnown
      (baseline.foldl (fun m t => insertColumns t.name m t.columns) m) t.name t.columns := by
    intro m t mem
    induction baseline generalizing m with
    | nil => cases mem
    | cons first rest ih =>
      obtain ⟨fresh, tail⟩ := List.nodup_cons.mp names
      obtain ⟨own, others⟩ := List.forall_mem_cons.mp distinct
      rcases List.mem_cons.mp mem with rfl | later
      · have kept : ∀ (tables : List TableDef) (m : ColumnTypeMap),
            t.name ∉ tables.map (·.name) →
            tables.foldl (fun m u => insertColumns u.name m u.columns) m t.name = m t.name := by
          intro tables
          induction tables with
          | nil => exact fun _ _ => rfl
          | cons u rest ih =>
            intro m absent
            simp only [List.map_cons, List.mem_cons, not_or] at absent
            rw [List.foldl_cons, ih _ absent.2, insert_columns_other m absent.1]
        rw [List.foldl_cons, TypesKnown, kept rest _ fresh]
        exact insert_columns_known m t.name own
      · exact ih tail others _ later
  intro name t found
  obtain ⟨mem, rfl⟩ := table_at_name found
  exact from_map _ t mem

/-! The types of the replayed schema -/

def replayedTypes (schema : List TableDef) : ColumnTypeMap := fun table column =>
  (findColumnInSchema schema table column).map (·.type)

section Compare
variable {displayFloat : String → String} {types : ColumnTypeMap} {s' : Schema}
  (known : SchemaKnown types s')

def standsIn (schema : List TableDef) (w : CheckTypeMismatchWarning) : Bool :=
  (findColumnInSchema schema w.table w.column).isSome

include known

theorem comparison_replayed (idx : Nat) (table name expr : String)
    (comparison : String × CheckLiteral) :
    ((types table comparison.1).bind fun colType =>
        checkOne displayFloat idx table name expr colType comparison).filter (standsIn s') =
      (replayedTypes s' table comparison.1).bind fun colType =>
        checkOne displayFloat idx table name expr colType comparison := by
  have about : ∀ ty w, checkOne displayFloat idx table name expr ty comparison = some w →
      w.table = table ∧ w.column = comparison.1 := by
    intro ty w reported
    unfold checkOne at reported
    split at reported
    · obtain rfl := Option.some.inj reported
      exact ⟨rfl, rfl⟩
    · cases reported
  cases found : findColumnInSchema s' table comparison.1 with
  | none =>
    simp only [replayedTypes, found, Option.map_none, Option.bind_none,
      Option.filter_eq_none_iff]
    intro w reported
    obtain ⟨ty, _, judged⟩ := Option.bind_eq_some_iff.mp reported
    obtain ⟨here, column⟩ := about ty w judged
    simp [standsIn, here, column, found]
  | some c =>
    obtain ⟨t, here, inside⟩ := Option.bind_eq_some_iff.mp found
    have named : c.name = comparison.1 := by simpa using List.find?_some inside
    have typed := known_column (known table t here) (List.mem_of_find?_eq_some inside)
    rw [named] at typed
    obtain ⟨ty, looked, alike⟩ := Option.map_eq_some_iff.mp typed
    simp only [replayedTypes, found, looked, Option.map_some, Option.bind_some]
    rw [← check_one_alike alike]
    cases judged : checkOne displayFloat idx table name expr ty comparison with
    | none => rfl
    | some w =>
      obtain ⟨here, column⟩ := about ty w judged
      simp [standsIn, here, column, found]

theorem constraint_replayed (idx : Nat) (brought : String × TableConstraint) :
    (scanConstraint displayFloat types idx brought).filter (standsIn s') =
      scanConstraint displayFloat (replayedTypes s') idx brought := by
  obtain ⟨table, constraint⟩ := brought
  cases constraint with
  | check name expr strategy =>
    simp only [scanConstraint, scanCheck, List.filter_filterMap]
    exact List.filterMap_congr fun comparison _ =>
      comparison_replayed known idx table name expr comparison
  | _ => rfl

end Compare

/-- Of the literals reported, those on columns that stand after the plan are exactly the
    literals that the types of the replayed schema refuse. -/
theorem mismatches_replayed (displayFloat : String → String) {plan : MigrationPlan}
    {baseline s' : List TableDef} (names : TableNamesNodup baseline)
    (distinct : DistinctColumns baseline)
    (steady : ∀ a ∈ plan.actions, isRenaming a = false ∧ BringsDistinct a)
    (applied : applyActions baseline plan.actions = .ok s') :
    (findCheckTypeMismatches displayFloat plan baseline).filter (standsIn s') =
      mismatchesUnder displayFloat (replayedTypes s') plan := by
  have known := schema_known_run names distinct steady (baseline_known names distinct) applied
  simp only [findCheckTypeMismatches, mismatchesUnder, List.filter_flatMap]
  refine List.flatMap_congr fun entry _ => ?_
  exact List.flatMap_congr fun brought _ => constraint_replayed known entry.2 brought

def parcelTable (columns : List ColumnDef) (constraints : List TableConstraint) : TableDef :=
  ⟨"parcel", none, columns, constraints⟩

def weightColumn : ColumnDef := .new "weight" (.simple .integer) false

def labelColumn : ColumnDef := .new "label" (.simple .text) true

def labelCheck : TableConstraint := .check "label_short" "label > 5" .deleteViolatingRows

def parcelPlan : MigrationPlan :=
  ⟨"", none, none, 1, [.addColumn "parcel" labelColumn none, .addConstraint "parcel" labelCheck]⟩

theorem parcel_mismatches :
    (findCheckTypeMismatches id parcelPlan [parcelTable [weightColumn] []]).filter
        (standsIn [parcelTable [weightColumn, labelColumn] [labelCheck]]) =
      mismatchesUnder id (replayedTypes [parcelTable [weightColumn, labelColumn] [labelCheck]])
        parcelPlan :=
  mismatches_replayed id (by decide) (by decide) (by simp [parcelPlan, isRenaming, BringsDistinct])
    (by decide)

end Vespertide
