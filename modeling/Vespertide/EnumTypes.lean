import Vespertide.PlanQueries
import Vespertide.ColumnInvariants
import Vespertide.Support.Holdings
import Vespertide.Support.Registry

/-!
The enum types of a PostgreSQL database while the statements of a plan run. A
type is created and dropped by statements of its own; a column has a type from
the statement that adds or retypes it on.
-/
namespace Vespertide
open Holdings Registry

abbrev ColumnKey := String × String

abbrev TypeStore := Store ColumnKey String

def ColumnType.enumName : ColumnType → Option String
  | .complex (.enum name _) => some name
  | _ => none

/-- The type PostgreSQL keeps for a column: an integer enum is a plain integer. -/
def ColumnType.enumTypeName (table : String) : ColumnType → Option String
  | .complex (.enum name (.string _)) => some (buildEnumTypeName table name)
  | _ => none

/-! The database -/

/-- The name in `CREATE TYPE "name" AS ENUM (…)`. -/
def createdType (sql : String) : Option String :=
  (Text.after "CREATE TYPE \"".toList sql.toList).map fun rest =>
    String.ofList (Text.unquote '"' rest)

def SeaColumnDef.holding (table : String) (c : SeaColumnDef) : Option (ColumnKey × String) :=
  (c.type.enumTypeName table).map fun type => ((table, c.name), type)

/-- One statement, where it is not refused: creating a type that exists, dropping
    one that is missing or in use. -/
def runOnTypes (db : TypeStore) : BuiltQuery → Option TypeStore
  | .createTable stmt => some (db.hold (stmt.columns.filterMap (·.holding stmt.table)))
  | .dropTable table => some (db.release (·.1 = table))
  | .renameTable old new => some (db.move fun k => (if k.1 = old then new else k.1, k.2))
  | .addColumn table c => some (db.retype (table, c.name) (c.type.enumTypeName table))
  | .modifyColumn table c _ => some (db.retype (table, c.name) (c.type.enumTypeName table))
  | .castColumn table column type => some (db.retype (table, column) (some type))
  | .dropColumn table column => some (db.retype (table, column) none)
  | .renameColumn table old new =>
      some (db.move fun k => if k = (table, old) then (table, new) else k)
  | .createEnumType sql => (createdType sql).bind db.create
  | .dropEnumType name => db.drop name
  | .renameEnumType old new => db.rename old new
  | _ => some db

/-- Statements on rows, indexes, constraints and attributes. -/
def BuiltQuery.keepsTypes : BuiltQuery → Bool
  | .createTable _ | .dropTable _ | .renameTable _ _ | .addColumn _ _ | .modifyColumn _ _ _
  | .castColumn _ _ _ | .dropColumn _ _ | .renameColumn _ _ _ | .createEnumType _
  | .dropEnumType _ | .renameEnumType _ _ => false
  | _ => true

/-! The schema -/

def columnHolds (table : String) (columns : List ColumnDef) (column : String) : Option String :=
  (columns.find? (·.name = column)).bind (·.type.enumTypeName table)

def schemaHolds (schema : Schema) (k : ColumnKey) : Option String :=
  (tableAt schema k.1).bind fun t => columnHolds k.1 t.columns k.2

def schemaEnumTypes (schema : Schema) : List String :=
  schema.flatMap fun t => t.columns.filterMap (·.type.enumTypeName t.name)

def typeStoreOf (schema : Schema) : TypeStore :=
  { names := schemaEnumTypes schema
    held := schema.flatMap fun t => t.columns.filterMap fun c =>
      (c.type.enumTypeName t.name).map fun type => ((t.name, c.name), type) }

/-! The condition -/

def ColumnType.isStringEnum : ColumnType → Bool
  | .complex (.enum _ (.string _)) => true
  | _ => false

/-- The first column of an enum name decides whether its type is created. -/
def stringLed (columns : List ColumnDef) (name : String) : Bool :=
  (columns.find? (·.type.enumName = some name)).any (·.type.isStringEnum)

def swapTypeName (table oldName newName : String) : String :=
  if oldName = newName then buildEnumTypeName table oldName ++ "_new"
  else buildEnumTypeName table newName

/-- A change of type swaps one type of the column's own for another that is free. -/
def RetypesInBalance (holds : ColumnKey → Option String) (table column : String) :
    ColumnType → ColumnType → Prop
  | .complex (.enum oldName oldValues), .complex (.enum newName newValues) =>
      (oldName = newName ∧ oldValues = newValues) ∨
      (¬ oldValues.isInteger ∧ ¬ newValues.isInteger ∧
        Sole holds (table, column) (buildEnumTypeName table oldName) ∧
        Free holds (swapTypeName table oldName newName))
  | .complex (.enum oldName oldValues), _ =>
      ¬ oldValues.isInteger ∧ Sole holds (table, column) (buildEnumTypeName table oldName)
  | _, newType => ∀ type, newType.enumTypeName table = some type → Free holds type

/-- What keeps the enum types in balance, for each action of a plan. -/
def KeepsBalance (schema : Schema) : MigrationAction → Prop
  | .createTable table columns _ => ∀ c ∈ columns, ∀ name values,
      c.type = .complex (.enum name (.string values)) →
      (stringLed columns name = true ↔ Free (schemaHolds schema) (buildEnumTypeName table name))
  | .deleteTable table => ∀ column type, schemaHolds schema (table, column) = some type →
      ∃ k, k.1 ≠ table ∧ schemaHolds schema k = some type
  | .addColumn table column _ => ∀ type, column.type.enumTypeName table = some type →
      Free (schemaHolds schema) type
  | .deleteColumn table column => ∀ c, findColumnInSchema schema table column = some c →
      ∀ name values, c.type = .complex (.enum name values) → ¬ values.isInteger ∧
        Sole (schemaHolds schema) (table, column) (buildEnumTypeName table name)
  | .modifyColumnType table column newType _ _ _ => ∀ c,
      findColumnInSchema schema table column = some c →
      RetypesInBalance (schemaHolds schema) table column c.type newType
  | _ => True

/-! What the statements do -/

theorem create_type_characters (name values : String) :
    ("CREATE TYPE " ++ quoteIdent name .postgres ++ " AS ENUM (" ++ values ++ ")").toList =
      "CREATE TYPE \"".toList ++ ((Text.quote '"' name.toList).tail ++
        (" AS ENUM (".toList ++ values.toList ++ ")".toList)) := by
  have quoted : (quoteIdent name .postgres).toList = Text.quote '"' name.toList :=
    String.toList_ofList
  have opened : Text.quote '"' name.toList = '"' :: (Text.quote '"' name.toList).tail := rfl
  simp only [String.toList_append, quoted]
  rw [opened]
  simp

theorem created_type (name values : String) : createdType ("CREATE TYPE " ++
    quoteIdent name .postgres ++ " AS ENUM (" ++ values ++ ")") = some name := by
  have apart : (" AS ENUM (".toList ++ values.toList ++ ")".toList).head? ≠ some '"' := by
    simp
  unfold createdType
  rw [create_type_characters, Text.after_append, Option.map_some, Text.unquote_quote _ apart,
    String.ofList_toList]

theorem keeping_types_runs {db : TypeStore} {q : BuiltQuery} (keeps : q.keepsTypes = true) :
    runOnTypes db q = some db := by
  cases q <;> first | rfl | cases keeps

theorem idle_run {db : TypeStore} {queries : List BuiltQuery}
    (keep : ∀ q ∈ queries, q.keepsTypes = true) : runSteps runOnTypes db queries = some db :=
  run_steps_idle fun q mem => keeping_types_runs (keep q mem)

section Idle
variable {table : String} {schema : List TableDef} {pending : List TableConstraint}
  {queries : List BuiltQuery}

theorem cleanup_then_idle {statements : List (SqlRows.Statement String)} {rest : List BuiltQuery}
    (keep : ∀ q ∈ rest, q.keepsTypes = true) :
    ∀ q ∈ statements.map BuiltQuery.cleanup ++ rest, q.keepsTypes = true := by
  intro q mem
  rcases List.mem_append.mp mem with row | later
  · obtain ⟨stmt, _, rfl⟩ := List.mem_map.mp row
    rfl
  · exact keep q later

theorem added_constraint_idle {constraint : TableConstraint}
    (built : buildAddConstraint .postgres table schema pending constraint = .ok queries) :
    ∀ q ∈ queries, q.keepsTypes = true := by
  cases constraint with
  | primaryKey autoIncrement columns strategy =>
    obtain rfl := Except.ok.inj built
    exact cleanup_then_idle (by simp [BuiltQuery.keepsTypes])
  | unique name columns strategy =>
    obtain rfl := Except.ok.inj built
    exact cleanup_then_idle (by simp [BuiltQuery.keepsTypes])
  | foreignKey name columns refTable refColumns onDelete onUpdate strategy =>
    simp only [buildAddConstraint, buildForeignKey] at built
    split at built
    · cases built
    · obtain rfl := Except.ok.inj built
      exact cleanup_then_idle (by simp [BuiltQuery.keepsTypes])
  | check name expr strategy =>
    obtain rfl := Except.ok.inj built
    cases strategy <;> simp [buildCheckViolationCleanup, BuiltQuery.keepsTypes]
  | index name columns =>
    obtain rfl := Except.ok.inj built
    simp [BuiltQuery.keepsTypes]

theorem removed_constraint_idle (constraint : TableConstraint) :
    ∀ q ∈ postgresRemoveConstraint table constraint, q.keepsTypes = true := by
  cases constraint <;> simp [postgresRemoveConstraint, BuiltQuery.keepsTypes]

theorem replaced_constraint_idle {old new : TableConstraint}
    (built : buildReplaceConstraint .postgres table schema pending old new = .ok queries) :
    ∀ q ∈ queries, q.keepsTypes = true := by
  unfold buildReplaceConstraint at built
  split at built
  · contradiction
  · obtain rfl := Except.ok.inj built
    simp [BuiltQuery.keepsTypes]
  · rename_i old new _ _ _ _ _
    simp only [buildRemoveConstraint] at built
    cases added : buildAddConstraint .postgres table (replacedSchema table schema old new)
        pending new with
    | error e =>
      rw [added] at built
      cases built
    | ok rest =>
      rw [added] at built
      obtain rfl := Except.ok.inj built
      exact List.forall_mem_append.mpr ⟨removed_constraint_idle old, added_constraint_idle added⟩

theorem nullable_idle {column : String} {nullable : Bool} {fillWith : Option String}
    {deleteNullRows : Bool}
    (built : buildModifyColumnNullable .postgres table column schema pending nullable fillWith
      deleteNullRows = .ok queries) : ∀ q ∈ queries, q.keepsTypes = true := by
  obtain rfl := Except.ok.inj built
  refine List.forall_mem_append.mpr ⟨?_, by simp [BuiltQuery.keepsTypes]⟩
  unfold nullRows
  split
  · simp
  · split
    · simp [BuiltQuery.keepsTypes]
    · intro q mem
      obtain ⟨value, _, rfl⟩ := List.mem_map.mp mem
      rfl

theorem default_idle {column : String} {newDefault backfill : Option String}
    (built : buildModifyColumnDefault .postgres table column schema pending newDefault backfill =
      .ok queries) : ∀ q ∈ queries, q.keepsTypes = true := by
  obtain rfl := Except.ok.inj built
  refine List.forall_mem_cons.mpr ⟨rfl, ?_⟩
  intro q mem
  obtain ⟨value, _, rfl⟩ := List.mem_map.mp mem
  rfl

theorem remap_idle (column : String) (mapping : List (Int × Int)) :
    ∀ q ∈ buildRemapEnumValues .postgres table column mapping, q.keepsTypes = true := by
  unfold buildRemapEnumValues
  split
  · simp
  · simp [BuiltQuery.keepsTypes]

end Idle

/-! What the actions do to the schema -/

theorem find_column_holds (schema : Schema) (table column : String) :
    schemaHolds schema (table, column) =
      (findColumnInSchema schema table column).bind (·.type.enumTypeName table) := by
  simp only [schemaHolds, columnHolds, findColumnInSchema, tableAt, Option.bind_assoc]

theorem column_holds_eq (table : String) (columns : List ColumnDef) (column : String) :
    columnHolds table columns column =
      ((columns.map fun c => (c.name, c.type.enumTypeName table)).find? (·.1 = column)).bind
        (·.2) := by
  rw [columnHolds, List.find?_map, Option.bind_map]
  rfl

theorem column_holds_congr {table : String} {first second : List ColumnDef}
    (same : first.map (fun c => (c.name, c.type.enumTypeName table)) =
      second.map fun c => (c.name, c.type.enumTypeName table)) :
    columnHolds table first = columnHolds table second := by
  funext column
  rw [column_holds_eq, column_holds_eq, same]

section Edits
variable {schema : Schema} {t : TableDef} {table column : String}

theorem holds_edited {f : TableDef → Outcome TableDef} (found : tableAt schema table = some t)
    (named : (f t).state.name = table) : schemaHolds (onTable table f schema).state =
      fun k => if k.1 = table then columnHolds table (f t).state.columns k.2
        else schemaHolds schema k := by
  funext k
  rw [schemaHolds, on_table_at found named]
  by_cases same : k.1 = table
  · simp [same]
  · simp [same, schemaHolds]

theorem holds_unedited {f : TableDef → Outcome TableDef} (found : tableAt schema table = some t)
    (named : (f t).state.name = table)
    (same : columnHolds table (f t).state.columns = columnHolds table t.columns) :
    schemaHolds (onTable table f schema).state = schemaHolds schema := by
  rw [holds_edited found named, same]
  funext k
  split
  · rename_i here
    obtain ⟨first, second⟩ := k
    obtain rfl : first = table := here
    simp [schemaHolds, found]
  · rfl

theorem holds_updated {f : TableDef → Outcome TableDef} (found : tableAt schema table = some t)
    (named : (f t).state.name = table) {own : Option String}
    (updates : ∀ other, columnHolds table (f t).state.columns other =
      if other = column then own else columnHolds table t.columns other) :
    schemaHolds (onTable table f schema).state =
      Function.update (schemaHolds schema) (table, column) own := by
  rw [holds_edited found named]
  funext k
  obtain ⟨first, second⟩ := k
  by_cases here : first = table
  · subst here
    rw [if_pos rfl, updates]
    by_cases same : second = column
    · subst same
      simp
    · have other : (first, second) ≠ (first, column) := by simpa using same
      rw [if_neg same, Function.update_of_ne other]
      simp [schemaHolds, found]
  · have other : (first, second) ≠ (table, column) := by
      rintro equal
      exact here (congrArg Prod.fst equal)
    rw [if_neg here, Function.update_of_ne other]

theorem column_holds_filtered (columns : List ColumnDef) (other : String) :
    columnHolds table (columns.filter (·.name ≠ column)) other =
      if other = column then none else columnHolds table columns other := by
  unfold columnHolds
  rw [List.find?_filter]
  by_cases same : other = column
  · subst same
    rw [if_pos rfl, List.find?_eq_none.mpr, Option.bind_none]
    simp
  · rw [if_neg same]
    congr 2
    funext c
    by_cases here : c.name = other
    · simp [here, same]
    · simp [here]

theorem column_holds_appended (columns : List ColumnDef) (c : ColumnDef)
    (fresh : c.name ∉ columns.map (·.name)) (other : String) :
    columnHolds table (columns ++ [c]) other =
      if other = c.name then c.type.enumTypeName table else columnHolds table columns other := by
  unfold columnHolds
  rw [List.find?_append]
  by_cases same : other = c.name
  · subst same
    have absent : columns.find? (·.name = c.name) = none := by
      rw [List.find?_eq_none]
      intro d mem
      simp only [decide_eq_true_eq]
      intro equal
      exact fresh (List.mem_map.mpr ⟨d, mem, equal⟩)
    simp [absent]
  · have alone : [c].find? (·.name = other) = none := by simp [Ne.symm same]
    rw [if_neg same, alone, Option.or_none]

theorem column_holds_mapped (columns : List ColumnDef) {f : ColumnDef → ColumnDef}
    (named : ∀ c, (f c).name = c.name) {own : Option String} (present : column ∈ columns.map (·.name))
    (owns : ∀ c, (f c).type.enumTypeName table = own) (other : String) :
    columnHolds table (mapFirstColumn column f columns) other =
      if other = column then own else columnHolds table columns other := by
  unfold columnHolds
  induction columns with
  | nil => simp at present
  | cons c rest ih =>
    unfold mapFirstColumn
    by_cases first : c.name = column
    · rw [if_pos first]
      by_cases same : other = column
      · subst same
        simp [named, first, owns]
      · have apart : ¬ c.name = other := fun equal => same (equal.symm.trans first)
        simp [named, apart, same]
    · rw [if_neg first]
      have later : column ∈ rest.map (·.name) := by
        rcases List.mem_cons.mp present with here | there
        · exact absurd here.symm first
        · exact there
      by_cases here : c.name = other
      · have apart : ¬ other = column := fun equal => first (here.trans equal)
        simp [here, apart]
      · simpa [here] using ih later

end Edits

def keepsColumnTypes : MigrationAction → Bool
  | .modifyColumnNullable _ _ _ _ _ | .modifyColumnDefault _ _ _ _ | .modifyColumnComment _ _ _
  | .addConstraint _ _ | .removeConstraint _ _ | .replaceConstraint _ _ _
  | .remapEnumValues _ _ _ => true
  | _ => false

theorem remapped_type_name (table : String) (mapping : List (Int × Int)) (ty : ColumnType) :
    (remapType mapping ty).enumTypeName table = ty.enumTypeName table := by
  unfold remapType
  split <;> rfl

theorem cleared_types (table : String) (constraint : TableConstraint) (columns : List ColumnDef) :
    (clearInlineConstraintFields table constraint columns).map
        (fun c => (c.name, c.type.enumTypeName table)) =
      columns.map fun c => (c.name, c.type.enumTypeName table) := by
  have read : (fun c : ColumnDef => (c.name, c.type.enumTypeName table)) =
      (fun c : ColumnDef => (c.name, c.type.enumTypeName table)) ∘ ColumnDef.stripInline := rfl
  rw [read, ← List.map_map, cleared_attributes, List.map_map]

theorem edit_keeps_types {a : MigrationAction} (keeps : keepsColumnTypes a = true) (t : TableDef) :
    (tableEdit a t).state.columns.map (fun c => (c.name, c.type.enumTypeName (actionTable a))) =
      t.columns.map fun c => (c.name, c.type.enumTypeName (actionTable a)) := by
  have onto : ∀ table column (f : ColumnDef → ColumnDef),
      (∀ c, ((f c).name, (f c).type.enumTypeName (actionTable a)) =
        (c.name, c.type.enumTypeName (actionTable a))) →
      (onColumn table column f t).state.columns.map
          (fun c => (c.name, c.type.enumTypeName (actionTable a))) =
        t.columns.map fun c => (c.name, c.type.enumTypeName (actionTable a)) := by
    intro table column f kept
    unfold onColumn
    split
    · exact mapped_first_keeps _ kept column t.columns
    · rfl
  cases a with
  | modifyColumnNullable table column nullable fillWith delete =>
    exact onto table column _ fun _ => rfl
  | modifyColumnDefault table column newDefault backfill => exact onto table column _ fun _ => rfl
  | modifyColumnComment table column newComment => exact onto table column _ fun _ => rfl
  | remapEnumValues table column mapping =>
    refine onto table column _ fun c => ?_
    rw [remapped_type_name]
  | addConstraint table constraint =>
    simp only [tableEdit, addConstraintTo, Outcome.ok]
    split <;> rfl
  | removeConstraint table constraint => exact cleared_types table constraint t.columns
  | replaceConstraint table old new =>
    simp only [tableEdit, replaceConstraintIn]
    split
    · exact cleared_types table old t.columns
    · rfl
  | _ => cases keeps

theorem edit_found {schema : Schema} {a : MigrationAction} (edit : isEdit a = true)
    (ok : (applyAction schema a).error = none) :
    ∃ t, tableAt schema (actionTable a) = some t ∧ (tableEdit a t).error = none ∧
      (tableEdit a t).state.name = actionTable a := by
  rw [edit_applies edit] at ok
  cases found : tableAt schema (actionTable a) with
  | none =>
    rw [on_table_missing found] at ok
    cases ok
  | some t =>
    rw [on_table_error found] at ok
    exact ⟨t, rfl, ok, (table_edit_name ok).trans (table_at_name found).2⟩

theorem action_keeps_holds {schema : Schema} {a : MigrationAction}
    (keeps : keepsColumnTypes a = true) (ok : (applyAction schema a).error = none) :
    schemaHolds (applyAction schema a).state = schemaHolds schema := by
  have edit : isEdit a = true := by cases a <;> first | rfl | cases keeps
  obtain ⟨t, found, _, named⟩ := edit_found edit ok
  rw [edit_applies edit]
  exact holds_unedited found named (column_holds_congr (edit_keeps_types keeps t))

theorem delete_column_holds {schema : Schema} {table column : String}
    (ok : (applyAction schema (.deleteColumn table column)).error = none) :
    schemaHolds (applyAction schema (.deleteColumn table column)).state =
      Function.update (schemaHolds schema) (table, column) none := by
  obtain ⟨t, found, _, named⟩ := edit_found rfl ok
  refine holds_updated found named fun other => ?_
  rw [← column_holds_filtered]
  simp only [tableEdit, deleteColumnFrom]
  split <;> rfl

theorem retype_column_holds {schema : Schema} {table column : String} {newType : ColumnType}
    {fillWith : Option (List (String × String))} {strategy : Option NarrowingStrategy}
    {timezone : Option String}
    (ok : (applyAction schema (.modifyColumnType table column newType fillWith strategy
      timezone)).error = none) :
    schemaHolds (applyAction schema (.modifyColumnType table column newType fillWith strategy
        timezone)).state =
      Function.update (schemaHolds schema) (table, column) (newType.enumTypeName table) := by
  obtain ⟨t, found, done, named⟩ := edit_found rfl ok
  refine holds_updated found named fun other => ?_
  simp only [tableEdit, onColumn] at done ⊢
  split at done
  · rename_i present
    rw [if_pos present]
    exact column_holds_mapped (f := fun c => { c with type := newType }) t.columns (fun _ => rfl)
      present (fun _ => rfl) other
  · cases done

theorem retyped_column_found {schema : Schema} {table column : String} {newType : ColumnType}
    {fillWith : Option (List (String × String))} {strategy : Option NarrowingStrategy}
    {timezone : Option String}
    (ok : (applyAction schema (.modifyColumnType table column newType fillWith strategy
      timezone)).error = none) : ∃ c, findColumnInSchema schema table column = some c := by
  obtain ⟨t, found, done, _⟩ := edit_found rfl ok
  simp only [tableEdit, onColumn] at done
  split at done
  · rename_i present
    obtain ⟨c, mem, named⟩ := List.mem_map.mp present
    have here : (t.columns.find? (·.name = column)).isSome := by
      rw [List.find?_isSome]
      exact ⟨c, mem, by simpa using named⟩
    obtain ⟨d, first⟩ := Option.isSome_iff_exists.mp here
    refine ⟨d, ?_⟩
    have at_table : schema.find? (·.name = table) = some t := found
    rw [findColumnInSchema, at_table, Option.bind_some, first]
  · cases done

theorem add_column_holds {schema : Schema} {table : String} {column : ColumnDef}
    {fillWith : Option String}
    (ok : (applyAction schema (.addColumn table column fillWith)).error = none) :
    schemaHolds schema (table, column.name) = none ∧
      schemaHolds (applyAction schema (.addColumn table column fillWith)).state =
        Function.update (schemaHolds schema) (table, column.name)
          (column.type.enumTypeName table) := by
  obtain ⟨t, found, done, named⟩ := edit_found rfl ok
  simp only [tableEdit] at done
  by_cases present : column.name ∈ t.columnNames
  · rw [add_column_present present] at done
    cases done
  · by_cases accepted : Normalizable (t.columns ++ [column])
    · constructor
      · have absent : t.columns.find? (·.name = column.name) = none := by
          rw [List.find?_eq_none]
          intro d mem
          simp only [decide_eq_true_eq]
          intro equal
          exact present (List.mem_map.mpr ⟨d, mem, equal⟩)
        have here : tableAt schema table = some t := found
        simp [schemaHolds, here, columnHolds, absent]
      · refine holds_updated found named fun other => ?_
        simp only [tableEdit, add_column_to present accepted, Outcome.ok]
        exact column_holds_appended t.columns column present other
    · exact absurd done (add_column_refused table present accepted).2

theorem delete_table_holds (schema : Schema) (table : String) :
    schemaHolds (applyAction schema (.deleteTable table)).state =
      fun k => if k.1 = table then none else schemaHolds schema k := by
  have kept : (applyAction schema (.deleteTable table)).state =
      schema.filter (·.name ≠ table) := by
    simp only [applyAction, deleteTable]
    split <;> rfl
  rw [kept]
  funext k
  simp only [schemaHolds, tableAt, List.find?_filter]
  by_cases same : k.1 = table
  · rw [if_pos same, List.find?_eq_none.mpr, Option.bind_none]
    simp [same]
  · rw [if_neg same]
    congr 2
    funext t
    by_cases here : t.name = k.1
    · simp [here, same]
    · simp [here]

theorem create_table_holds {schema : Schema} {table : String} {columns : List ColumnDef}
    {constraints : List TableConstraint}
    (ok : (applyAction schema (.createTable table columns constraints)).error = none) :
    (∀ column, schemaHolds schema (table, column) = none) ∧
      schemaHolds (applyAction schema (.createTable table columns constraints)).state =
        fun k => if k.1 = table then columnHolds table columns k.2 else schemaHolds schema k := by
  simp only [applyAction, createTable] at ok ⊢
  by_cases taken : schema.any (·.name = table) = true
  · rw [if_pos taken] at ok
    cases ok
  · rw [if_neg taken] at ok ⊢
    have absent : tableAt schema table = none := by
      rw [table_at_none]
      intro t mem equal
      exact taken (List.any_eq_true.mpr ⟨t, mem, by simpa using equal⟩)
    cases normal : (TableDef.mk table none columns constraints).normalize with
    | error e =>
      rw [normal] at ok
      cases ok
    | ok t =>
      obtain rfl := normalize_value normal
      refine ⟨fun column => by simp [schemaHolds, absent], ?_⟩
      funext k
      simp only [schemaHolds, tableAt, Outcome.ok, List.find?_append]
      by_cases same : k.1 = table
      · have skipped : schema.find? (·.name = table) = none := absent
        simp [skipped, same]
      · simp [same, Ne.symm same]

end Vespertide
