import Vespertide.EnumTypes

/-!
The enum types in balance, action by action: a column that is added, dropped or
retyped, a table that is dropped.
-/
namespace Vespertide
open Holdings Registry

/-! Balance, action by action -/

def RunsInBalance (db : TypeStore) (queries : List BuiltQuery) (holds : ColumnKey → Option String) :
    Prop := ∃ db', runSteps runOnTypes db queries = some db' ∧ db'.Balanced holds

/-! The kinds of type -/

theorem enum_cases (ty : ColumnType) :
    (∃ name values, ty = .complex (.enum name (.string values))) ∨
      (∃ name items, ty = .complex (.enum name (.integer items))) ∨ ty.enumName = none := by
  cases ty with
  | simple ty => exact .inr (.inr rfl)
  | complex ty =>
    cases ty with
    | enum name values =>
      cases values with
      | string values => exact .inl ⟨name, values, rfl⟩
      | integer items => exact .inr (.inl ⟨name, items, rfl⟩)
    | _ => exact .inr (.inr rfl)

theorem plain_type_name {table : String} {ty : ColumnType} (plain : ty.enumName = none) :
    ty.enumTypeName table = none := by
  unfold ColumnType.enumName at plain
  unfold ColumnType.enumTypeName
  split <;> simp_all

theorem plain_drops {table : String} {ty : ColumnType} (plain : ty.enumName = none) :
    buildDropEnumTypeSql table ty = [] := by
  unfold ColumnType.enumName at plain
  unfold buildDropEnumTypeSql
  split <;> simp_all

theorem plain_creates {table : String} {ty : ColumnType} (plain : ty.enumName = none) :
    buildCreateEnumTypeSql table ty = none := by
  unfold ColumnType.enumName at plain
  unfold buildCreateEnumTypeSql
  split <;> simp_all

theorem added_runs {schema : Schema} {db : TypeStore} {table : String} {added : ColumnDef}
    {fillWith : Option String} {pending : List TableConstraint} {queries : List BuiltQuery}
    {holds : ColumnKey → Option String}
    (built : buildAddColumn .postgres table schema pending added fillWith = .ok queries) :
    RunsInBalance db queries holds ↔ RunsInBalance db
      ((buildCreateEnumTypeSql table added.type).toList.map BuiltQuery.createEnumType ++
        [BuiltQuery.addColumn table (buildSeaColumnDef added)]) holds := by
  simp only [buildAddColumn, reduceCtorEq, false_and, ↓reduceIte, Except.ok.injEq] at built
  subst built
  simp only [RunsInBalance, run_steps_append]
  cases runSteps runOnTypes db
      ((buildCreateEnumTypeSql table added.type).toList.map BuiltQuery.createEnumType) with
  | none => simp
  | some db' =>
    rw [Option.bind_some, Option.bind_some]
    split
    · have fills : ∀ q ∈ (normalizeFillWith fillWith).toList.map
          (fun value => BuiltQuery.fillColumn table added.name value false),
          q.keepsTypes = true := by
        intro q mem
        obtain ⟨value, _, rfl⟩ := List.mem_map.mp mem
        rfl
      have twice : runSteps runOnTypes db'
          ([.addColumn table (buildSeaColumnDef { added with nullable := true })] ++
            (normalizeFillWith fillWith).toList.map
              (fun value => .fillColumn table added.name value false) ++
            [.modifyColumn table (buildSeaColumnDef added) none]) =
          some ((db'.retype (table, added.name) (added.type.enumTypeName table)).retype
            (table, added.name) (added.type.enumTypeName table)) := by
        rw [run_steps_append, run_steps_append]
        simp only [runSteps, runOnTypes, Option.bind_some, idle_run fills]
        rfl
      rw [twice]
      simp only [Option.some.injEq, exists_eq_left', runSteps, runOnTypes, Option.bind_some]
      exact retype_twice
    · rfl

theorem swap_name_apart (table oldName newName : String) :
    buildEnumTypeName table oldName ≠ swapTypeName table oldName newName := by
  intro same
  have texts := congrArg String.toList same
  unfold swapTypeName at texts
  split at texts
  · simp only [String.toList_append] at texts
    simpa using congrArg List.length texts
  · rename_i other
    simp only [buildEnumTypeName, String.toList_append, List.append_assoc,
      List.append_cancel_left_eq] at texts
    exact other (String.toList_injective texts)

theorem migration_runs {db : TypeStore} (table column : String) (schema : Schema)
    (oldName newName : String) (newValues : EnumValues) :
    runSteps runOnTypes db
        (buildPostgresEnumMigration table column schema oldName newName newValues none) =
      (db.exchange (table, column) (buildEnumTypeName table oldName)
        (swapTypeName table oldName newName)).bind fun s =>
          if oldName = newName then
            s.rename (swapTypeName table oldName newName) (buildEnumTypeName table oldName)
          else some s := by
  have idle_default : ∀ (present : Bool) (db : TypeStore), runSteps runOnTypes db
      (if present then [.alter (buildPgAlterColumnSql table column "DROP DEFAULT")] else []) =
        some db := by
    intro present db
    cases present <;> rfl
  have idle_restore : ∀ (value : Option DefaultValue) (text : DefaultValue → String)
      (db : TypeStore), runSteps runOnTypes db
        (value.toList.map fun value => .alter (text value)) = some db := by
    intro value text db
    cases value <;> rfl
  unfold buildPostgresEnumMigration
  simp only [fillWithUpdates, Option.map_none, Option.getD_none, List.nil_append, run_steps_append]
  have created : runSteps runOnTypes db [.createEnumType ("CREATE TYPE " ++ quoteIdent
      (if oldName = newName then buildEnumTypeName table oldName ++ "_new"
        else buildEnumTypeName table newName) .postgres ++ " AS ENUM (" ++
      newValues.sqlValuesJoined ", " ++ ")")] = db.create (swapTypeName table oldName newName) := by
    simp only [runSteps, runOnTypes, created_type, Option.bind_some, swapTypeName]
    exact Option.bind_fun_some _
  have swapped : ∀ s : TypeStore, runSteps runOnTypes s
      [.castColumn table column (if oldName = newName then buildEnumTypeName table oldName ++ "_new"
        else buildEnumTypeName table newName), .dropEnumType (buildEnumTypeName table oldName)] =
      (s.retype (table, column) (some (swapTypeName table oldName newName))).drop
        (buildEnumTypeName table oldName) := by
    intro s
    simp only [runSteps, runOnTypes, Option.bind_some, swapTypeName]
    exact Option.bind_fun_some _
  rw [created, Store.exchange]
  cases db.create (swapTypeName table oldName newName) with
  | none => rfl
  | some s =>
    simp only [Option.bind_some, idle_default, swapped]
    cases (s.retype (table, column) (some (swapTypeName table oldName newName))).drop
        (buildEnumTypeName table oldName) with
    | none => rfl
    | some s' =>
      rw [Option.bind_some, Option.bind_some]
      by_cases same : oldName = newName
      · have renamed : runSteps runOnTypes s' [.renameEnumType (buildEnumTypeName table oldName ++
            "_new") (buildEnumTypeName table oldName)] =
            s'.rename (swapTypeName table oldName newName) (buildEnumTypeName table oldName) := by
          simp only [runSteps, runOnTypes, swapTypeName, if_pos same]
          exact Option.bind_fun_some _
        simp only [if_pos same, renamed]
        cases s'.rename (swapTypeName table oldName newName) (buildEnumTypeName table oldName) with
        | none => rfl
        | some s'' => exact idle_restore _ _ s''
      · simp only [if_neg same]
        exact idle_restore _ _ s'

section Retyping
variable {schema : Schema} {table column : String} {c : ColumnDef}
  (found : findColumnInSchema schema table column = some c)
include found

theorem retyped_plain (ordinary : c.type.enumName = none) (newType : ColumnType) :
    buildModifyColumnTypeDirect .postgres table column schema newType none =
      (buildCreateEnumTypeSql table newType).toList.map BuiltQuery.createEnumType ++
        [BuiltQuery.modifyColumn table (retypedColumn .postgres table column schema newType)
          none] := by
  unfold buildModifyColumnTypeDirect
  simp only [found, Option.map_some]
  generalize c.type = oldType at ordinary
  cases oldType with
  | simple ty =>
    cases newType with
    | simple ty' => rfl
    | complex ty' => cases ty' <;> simp [needsPostgresEnumMigration, fillWithUpdates,
        createNewEnumTypeIfNeeded, dropOldEnumTypeIfNeeded, buildCreateEnumTypeSql]
  | complex ty =>
    cases ty with
    | enum name values => cases ordinary
    | _ =>
      cases newType with
      | simple ty' => rfl
      | complex ty' => cases ty' <;> simp [needsPostgresEnumMigration, fillWithUpdates,
          createNewEnumTypeIfNeeded, dropOldEnumTypeIfNeeded, buildCreateEnumTypeSql]

theorem retyped_same {name : String} {values : EnumValues}
    (type : c.type = .complex (.enum name values)) :
    buildModifyColumnTypeDirect .postgres table column schema (.complex (.enum name values)) none =
      [.modifyColumn table (retypedColumn .postgres table column schema
        (.complex (.enum name values))) none] := by
  unfold buildModifyColumnTypeDirect
  simp [found, type, needsPostgresEnumMigration, fillWithUpdates, createNewEnumTypeIfNeeded,
    dropOldEnumTypeIfNeeded]

theorem retyped_migrates {oldName newName : String} {oldValues newValues : EnumValues}
    (type : c.type = .complex (.enum oldName oldValues))
    (changed : ¬ (oldName = newName ∧ oldValues = newValues)) :
    buildModifyColumnTypeDirect .postgres table column schema
        (.complex (.enum newName newValues)) none =
      buildPostgresEnumMigration table column schema oldName newName newValues none := by
  have needed : needsPostgresEnumMigration .postgres (some (.complex (.enum oldName oldValues)))
      (.complex (.enum newName newValues)) = true := by
    rw [not_and_or] at changed
    simpa [needsPostgresEnumMigration] using changed
  unfold buildModifyColumnTypeDirect
  simp only [found, Option.map_some, type, needed]

theorem retyped_leaves {oldName : String} {oldValues : EnumValues} {newType : ColumnType}
    (type : c.type = .complex (.enum oldName oldValues)) (ordinary : newType.enumName = none) :
    buildModifyColumnTypeDirect .postgres table column schema newType none =
      [.modifyColumn table (retypedColumn .postgres table column schema newType) none,
        .dropEnumType (buildEnumTypeName table oldName)] := by
  unfold buildModifyColumnTypeDirect
  simp only [found, Option.map_some, type]
  cases newType with
  | simple ty => rfl
  | complex ty =>
    cases ty with
    | enum name values => cases ordinary
    | _ => rfl

end Retyping

section Steps
variable {schema : Schema} {db : TypeStore} (balanced : db.Balanced (schemaHolds schema))
  {table column : String}
include balanced

theorem delete_table_balance_iff :
    RunsInBalance db [.dropTable table] (schemaHolds (applyAction schema (.deleteTable table)).state) ↔
      KeepsBalance schema (.deleteTable table) := by
  rw [delete_table_holds]
  have released := released_balanced_iff balanced fun k : ColumnKey => decide (k.1 = table)
  simp only [decide_eq_true_eq, decide_eq_false_iff_not] at released
  have runs : RunsInBalance db [.dropTable table]
      (fun k => if k.1 = table then none else schemaHolds schema k) ↔
      (db.release (·.1 = table)).Balanced
        (fun k => if k.1 = table then none else schemaHolds schema k) := by
    simp [RunsInBalance, runSteps, runOnTypes]
  rw [runs, released]
  constructor
  · intro kept column type held
    exact kept (table, column) type rfl held
  · rintro kept ⟨first, second⟩ type rfl held
    exact kept second type held

theorem delete_column_balance_iff
    (ok : (applyAction schema (.deleteColumn table column)).error = none) :
    RunsInBalance db (buildDirectDeleteColumn table column
        ((findColumnInSchema schema table column).map (·.type)))
      (schemaHolds (applyAction schema (.deleteColumn table column)).state) ↔
      KeepsBalance schema (.deleteColumn table column) := by
  rw [delete_column_holds ok]
  simp only [KeepsBalance]
  have holds := find_column_holds schema table column
  -- a column without an enum type of its own takes nothing along
  have plain : schemaHolds schema (table, column) = none →
      RunsInBalance db [.dropColumn table column]
        (Function.update (schemaHolds schema) (table, column) none) := by
    intro nothing
    exact ⟨_, rfl, retype_same balanced nothing⟩
  cases found : findColumnInSchema schema table column with
  | none =>
    rw [found] at holds
    exact iff_of_true (plain holds) (by simp)
  | some c =>
    rw [found, Option.bind_some] at holds
    rw [Option.map_some]
    rcases enum_cases c.type with ⟨name, values, type⟩ | ⟨name, items, type⟩ | ordinary
    · have own : schemaHolds schema (table, column) = some (buildEnumTypeName table name) := by
        rw [holds, type]
        rfl
      have runs : runSteps runOnTypes db (buildDirectDeleteColumn table column (some c.type)) =
          (db.retype (table, column) none).drop (buildEnumTypeName table name) := by
        simp [type, buildDirectDeleteColumn, buildDropEnumTypeSql, runSteps, runOnTypes]
      rw [RunsInBalance, runs, lose_balanced_iff balanced own]
      simp [type, EnumValues.isInteger]
    · have nothing : schemaHolds schema (table, column) = none := by
        rw [holds, type]
        rfl
      have refused := drop_unowned (a := buildEnumTypeName table name) balanced nothing none
      have runs : runSteps runOnTypes db (buildDirectDeleteColumn table column (some c.type)) =
          none := by
        simp [type, buildDirectDeleteColumn, buildDropEnumTypeSql, runSteps, runOnTypes, refused]
      rw [RunsInBalance, runs]
      simp [type, EnumValues.isInteger]
    · rw [plain_type_name ordinary] at holds
      refine iff_of_true ?_ ?_
      · simp only [buildDirectDeleteColumn, Option.toList_some, List.flatMap_cons,
          List.flatMap_nil, plain_drops ordinary, List.append_nil]
        exact plain holds
      · intro d same name values type
        obtain rfl := Option.some.inj same
        rw [type] at ordinary
        cases ordinary

theorem add_column_balance_iff {added : ColumnDef} {fillWith : Option String}
    {pending : List TableConstraint} {queries : List BuiltQuery}
    (ok : (applyAction schema (.addColumn table added fillWith)).error = none)
    (built : buildAddColumn .postgres table schema pending added fillWith = .ok queries) :
    RunsInBalance db queries (schemaHolds (applyAction schema (.addColumn table added fillWith)).state) ↔
      KeepsBalance schema (.addColumn table added fillWith) := by
  obtain ⟨nothing, holds⟩ := add_column_holds ok
  rw [holds, added_runs built]
  simp only [KeepsBalance]
  rcases enum_cases added.type with ⟨name, values, type⟩ | ⟨name, items, type⟩ | ordinary
  · have creates : (buildCreateEnumTypeSql table added.type).toList.map BuiltQuery.createEnumType =
        [.createEnumType ("CREATE TYPE " ++ quoteIdent (buildEnumTypeName table name) .postgres ++
          " AS ENUM (" ++ (EnumValues.string values).sqlValuesJoined ", " ++ ")")] := by
      rw [type]
      rfl
    have own : added.type.enumTypeName table = some (buildEnumTypeName table name) := by
      rw [type]
      rfl
    have runs : runSteps runOnTypes db
        ((buildCreateEnumTypeSql table added.type).toList.map BuiltQuery.createEnumType ++
          [.addColumn table (buildSeaColumnDef added)]) =
        (db.create (buildEnumTypeName table name)).map fun s =>
          s.retype (table, added.name) (some (buildEnumTypeName table name)) := by
      rw [creates]
      simp only [List.cons_append, List.nil_append, runSteps, runOnTypes, created_type,
        Option.bind_some, buildSeaColumnDef, own]
      exact Option.map_eq_bind.symm
    rw [RunsInBalance, runs, own, gain_balanced_iff balanced nothing]
    simp
  · have own : added.type.enumTypeName table = none := by
      rw [type]
      rfl
    have creates : buildCreateEnumTypeSql table added.type = none := by
      rw [type]
      rfl
    rw [own, creates]
    refine iff_of_true ⟨_, ?_, retype_same balanced nothing⟩ (by simp)
    simp [runSteps, runOnTypes, buildSeaColumnDef, own]
  · have own : added.type.enumTypeName table = none := plain_type_name ordinary
    rw [own, plain_creates ordinary]
    refine iff_of_true ⟨_, ?_, retype_same balanced nothing⟩ (by simp)
    simp [runSteps, runOnTypes, buildSeaColumnDef, own]

theorem migration_balance_iff {oldName newName : String} {oldValues newValues : EnumValues}
    (holds : schemaHolds schema (table, column) =
      (ColumnType.complex (.enum oldName oldValues)).enumTypeName table) :
    RunsInBalance db (buildPostgresEnumMigration table column schema oldName newName newValues none)
        (Function.update (schemaHolds schema) (table, column)
          ((ColumnType.complex (.enum newName newValues)).enumTypeName table)) ↔
      ¬ oldValues.isInteger ∧ ¬ newValues.isInteger ∧
        Sole (schemaHolds schema) (table, column) (buildEnumTypeName table oldName) ∧
        Free (schemaHolds schema) (swapTypeName table oldName newName) := by
  have apart := swap_name_apart table oldName newName
  rw [RunsInBalance, migration_runs]
  constructor
  · rintro ⟨db', ran, left⟩
    obtain ⟨swapped, exchanged, rest⟩ := Option.bind_eq_some_iff.mp ran
    obtain ⟨own, sole, free⟩ := exchange_only balanced apart exchanged
    have old_string : ¬ oldValues.isInteger := by
      intro integer
      cases oldValues with
      | string values => cases integer
      | integer items => cases holds.symm.trans own
    refine ⟨old_string, ?_, sole, free⟩
    intro integer
    cases newValues with
    | string values => cases integer
    | integer items =>
      -- the database holds an enum type where the schema has a plain integer
      obtain ⟨swapped', exchanged', between⟩ := exchange_balanced balanced apart own sole free
      obtain rfl := Option.some.inj (exchanged.symm.trans exchanged')
      by_cases same : oldName = newName
      · obtain ⟨remade, ran', whole⟩ := remake_balanced balanced apart own sole free
        rw [exchanged, Option.bind_some] at ran'
        rw [if_pos same, ran'] at rest
        obtain rfl := Option.some.inj rest
        have both := congrFun (whole.unique left) (table, column)
        rw [own, Function.update_self] at both
        cases both
      · rw [if_neg same] at rest
        obtain rfl := Option.some.inj rest
        have both := congrFun (between.unique left) (table, column)
        rw [Function.update_self, Function.update_self] at both
        cases both
  · rintro ⟨old_string, new_string, sole, free⟩
    cases oldValues with
    | integer items => exact absurd rfl old_string
    | string oldValues =>
      cases newValues with
      | integer items => exact absurd rfl new_string
      | string newValues =>
        have own : schemaHolds schema (table, column) = some (buildEnumTypeName table oldName) :=
          holds
        have gained : (ColumnType.complex (.enum newName (.string newValues))).enumTypeName table =
            some (buildEnumTypeName table newName) := rfl
        rw [gained]
        by_cases same : oldName = newName
        · obtain ⟨remade, ran, whole⟩ := remake_balanced balanced apart own sole free
          refine ⟨remade, ?_, ?_⟩
          · rw [← ran]
            simp only [if_pos same]
          · have kept : Function.update (schemaHolds schema) (table, column)
                (some (buildEnumTypeName table newName)) = schemaHolds schema := by
              rw [← same, ← own]
              exact Function.update_eq_self ..
            rwa [kept]
        · obtain ⟨swapped, ran, left⟩ := exchange_balanced balanced apart own sole free
          refine ⟨swapped, ?_, ?_⟩
          · rw [ran, Option.bind_some, if_neg same]
          · rwa [swapTypeName, if_neg same] at left

theorem enum_retype_balance_iff {c : ColumnDef} {oldName newName : String}
    {oldValues : EnumValues} (found : findColumnInSchema schema table column = some c)
    (type : c.type = .complex (.enum oldName oldValues)) (newValues : EnumValues) :
    RunsInBalance db (buildModifyColumnTypeDirect .postgres table column schema
          (.complex (.enum newName newValues)) none)
        (Function.update (schemaHolds schema) (table, column)
          ((ColumnType.complex (.enum newName newValues)).enumTypeName table)) ↔
      (oldName = newName ∧ oldValues = newValues) ∨
      (¬ oldValues.isInteger ∧ ¬ newValues.isInteger ∧
        Sole (schemaHolds schema) (table, column) (buildEnumTypeName table oldName) ∧
        Free (schemaHolds schema) (swapTypeName table oldName newName)) := by
  have holds := find_column_holds schema table column
  rw [found, Option.bind_some, type] at holds
  by_cases changed : oldName = newName ∧ oldValues = newValues
  · obtain ⟨rfl, rfl⟩ := changed
    rw [retyped_same found type]
    refine iff_of_true ⟨_, ?_, retype_same balanced holds⟩ (.inl ⟨rfl, rfl⟩)
    rfl
  · rw [retyped_migrates found type changed, migration_balance_iff balanced holds]
    simp [changed]

theorem retype_column_balance_iff {newType : ColumnType} {c : ColumnDef}
    (found : findColumnInSchema schema table column = some c) :
    RunsInBalance db (buildModifyColumnTypeDirect .postgres table column schema newType none)
        (Function.update (schemaHolds schema) (table, column) (newType.enumTypeName table)) ↔
      RetypesInBalance (schemaHolds schema) table column c.type newType := by
  have holds := find_column_holds schema table column
  rw [found, Option.bind_some] at holds
  -- the change itself, without statements on types around it
  have plain : ∀ type, newType.enumTypeName table = type →
      schemaHolds schema (table, column) = type → RunsInBalance db
        [.modifyColumn table (retypedColumn .postgres table column schema newType) none]
        (Function.update (schemaHolds schema) (table, column) type) := by
    intro type new same
    refine ⟨_, ?_, retype_same balanced same⟩
    simp [runSteps, runOnTypes, retypedColumn, new]
  have old_name : c.type.enumName = none ∨ ∃ oldName oldValues,
      c.type = .complex (.enum oldName oldValues) := by
    rcases enum_cases c.type with ⟨name, values, type⟩ | ⟨name, items, type⟩ | ordinary
    · exact .inr ⟨name, _, type⟩
    · exact .inr ⟨name, _, type⟩
    · exact .inl ordinary
  rcases old_name with ordinary | ⟨oldName, oldValues, old⟩
  · -- a plain column gains a type, or none
    rw [plain_type_name ordinary] at holds
    rw [retyped_plain found ordinary]
    have condition : RetypesInBalance (schemaHolds schema) table column c.type newType ↔
        ∀ type, newType.enumTypeName table = some type → Free (schemaHolds schema) type := by
      cases kind : c.type with
      | simple ty => exact Iff.rfl
      | complex ty =>
        cases ty with
        | enum name values =>
          rw [kind] at ordinary
          cases ordinary
        | _ => exact Iff.rfl
    rw [condition]
    rcases enum_cases newType with ⟨name, values, type⟩ | ⟨name, items, type⟩ | new_plain
    · subst type
      have runs : runSteps runOnTypes db ((buildCreateEnumTypeSql table
            (.complex (.enum name (.string values)))).toList.map BuiltQuery.createEnumType ++
          [.modifyColumn table (retypedColumn .postgres table column schema
            (.complex (.enum name (.string values)))) none]) =
          (db.create (buildEnumTypeName table name)).map fun s =>
            s.retype (table, column) (some (buildEnumTypeName table name)) := by
        simp only [buildCreateEnumTypeSql, EnumValues.isInteger, Bool.false_eq_true, ↓reduceIte,
          Option.toList_some, List.map_cons, List.map_nil, List.cons_append, List.nil_append,
          runSteps, runOnTypes, created_type, Option.bind_some, retypedColumn]
        exact Option.map_eq_bind.symm
      have gained : (ColumnType.complex (.enum name (.string values))).enumTypeName table =
          some (buildEnumTypeName table name) := rfl
      rw [RunsInBalance, runs, gained, gain_balanced_iff balanced holds]
      simp
    · subst type
      exact iff_of_true (plain none rfl holds) (by simp [ColumnType.enumTypeName])
    · rw [plain_creates new_plain, plain_type_name new_plain]
      exact iff_of_true (plain none (plain_type_name new_plain) holds) (by simp)
  · rw [old] at holds ⊢
    rcases enum_cases newType with ⟨newName, values, type⟩ | ⟨newName, items, type⟩ | new_plain
    · subst type
      exact (enum_retype_balance_iff balanced found old (.string values)).trans (by rfl)
    · subst type
      exact (enum_retype_balance_iff balanced found old (.integer items)).trans (by rfl)
    · -- the column leaves its type, which is dropped
      have condition : RetypesInBalance (schemaHolds schema) table column
          (.complex (.enum oldName oldValues)) newType ↔ ¬ oldValues.isInteger ∧
            Sole (schemaHolds schema) (table, column) (buildEnumTypeName table oldName) := by
        cases newType with
        | simple ty => exact Iff.rfl
        | complex ty =>
          cases ty with
          | enum name values => cases new_plain
          | _ => exact Iff.rfl
      rw [condition, retyped_leaves found old new_plain, plain_type_name new_plain, RunsInBalance]
      have runs : runSteps runOnTypes db [.modifyColumn table (retypedColumn .postgres table column
          schema newType) none, .dropEnumType (buildEnumTypeName table oldName)] =
          (db.retype (table, column) none).drop (buildEnumTypeName table oldName) := by
        simp only [runSteps, runOnTypes, retypedColumn, plain_type_name new_plain,
          Option.bind_some]
        exact Option.bind_fun_some _
      rw [runs]
      cases oldValues with
      | string values =>
        rw [lose_balanced_iff balanced holds]
        simp [EnumValues.isInteger]
      | integer items =>
        rw [drop_unowned balanced holds]
        simp [EnumValues.isInteger]

end Steps

end Vespertide
