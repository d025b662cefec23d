import Vespertide.EnumRetyping
import Vespertide.PlanSteps

/-!
The enum types in balance over a plan. A new table creates its types, one for
each enum name; every step of a plan keeps the balance exactly under its
condition.
-/
namespace Vespertide
open Holdings Registry

/-! A new table -/

def createdTypeNames (table : String) : List String → List ColumnDef → List String
  | _, [] => []
  | created, column :: rest =>
      match column.type with
      | .complex (.enum name values) =>
          if name ∈ created then createdTypeNames table created rest
          else if values.isInteger then createdTypeNames table (name :: created) rest
          else buildEnumTypeName table name :: createdTypeNames table (name :: created) rest
      | _ => createdTypeNames table created rest

theorem create_types_run (table : String) (created : List String) (columns : List ColumnDef)
    (db : TypeStore) : runSteps runOnTypes db (createEnumTypes table created columns) =
      db.createAll (createdTypeNames table created columns) := by
  induction columns generalizing created db with
  | nil => rfl
  | cons c rest ih =>
    unfold createEnumTypes createdTypeNames
    cases type : c.type with
    | simple ty => exact ih created db
    | complex ty =>
      cases ty with
      | enum name values =>
        dsimp only
        by_cases listed : name ∈ created
        · rw [if_pos listed, if_pos listed]
          exact ih created db
        · rw [if_neg listed, if_neg listed]
          by_cases integer : values.isInteger = true
          · simp only [buildCreateEnumTypeSql, integer, ↓reduceIte]
            exact ih (name :: created) db
          · simp only [buildCreateEnumTypeSql, integer, Bool.false_eq_true, ↓reduceIte, runSteps,
              runOnTypes, created_type, Option.bind_some, Store.createAll]
            congr 1
            funext db'
            exact ih (name :: created) db'
      | _ => exact ih created db

theorem string_led_cons {c : ColumnDef} {rest : List ColumnDef} {name : String} :
    stringLed (c :: rest) name =
      if c.type.enumName = some name then c.type.isStringEnum else stringLed rest name := by
  unfold stringLed
  rw [List.find?_cons]
  by_cases here : c.type.enumName = some name <;> simp [here]

theorem mem_created_types {table type : String} {created : List String}
    {columns : List ColumnDef} : type ∈ createdTypeNames table created columns ↔
      ∃ name, type = buildEnumTypeName table name ∧ name ∉ created ∧
        stringLed columns name = true := by
  induction columns generalizing created with
  | nil => simp [createdTypeNames, stringLed]
  | cons c rest ih =>
    unfold createdTypeNames
    simp only [string_led_cons]
    cases kind : c.type with
    | simple ty => simpa [ColumnType.enumName] using ih
    | complex ty =>
      cases ty with
      | enum name values =>
        dsimp only [ColumnType.enumName]
        by_cases listed : name ∈ created
        · rw [if_pos listed, ih]
          refine exists_congr fun other => and_congr_right fun _ => and_congr_right fun fresh => ?_
          have apart : ¬ name = other := fun same => fresh (same ▸ listed)
          simp [apart]
        · rw [if_neg listed]
          have others : (∃ other, type = buildEnumTypeName table other ∧ other ∉ name :: created ∧
              stringLed rest other = true) ↔ ∃ other, name ≠ other ∧
                type = buildEnumTypeName table other ∧ other ∉ created ∧
                stringLed rest other = true := by
            refine exists_congr fun other => ?_
            rw [List.mem_cons, not_or, ne_comm]
            tauto
          cases values with
          | integer items =>
            simp only [EnumValues.isInteger, ↓reduceIte, ColumnType.isStringEnum, Option.some.injEq]
            rw [ih, others]
            refine exists_congr fun other => ?_
            by_cases same : name = other <;> simp [same]
          | string values =>
            simp only [EnumValues.isInteger, Bool.false_eq_true, ↓reduceIte, List.mem_cons,
              ColumnType.isStringEnum, Option.some.injEq]
            rw [ih, others]
            constructor
            · rintro (rfl | ⟨other, apart, here, fresh, led⟩)
              · exact ⟨name, rfl, listed, by simp⟩
              · exact ⟨other, here, fresh, by rwa [if_neg apart]⟩
            · rintro ⟨other, here, fresh, led⟩
              by_cases same : name = other
              · subst same
                exact .inl here
              · rw [if_neg same] at led
                exact .inr ⟨other, same, here, fresh, led⟩
      | _ => simpa [ColumnType.enumName] using ih

theorem enum_type_name_inj {table a b : String}
    (same : buildEnumTypeName table a = buildEnumTypeName table b) : a = b := by
  have texts := congrArg String.toList same
  simp only [buildEnumTypeName, String.toList_append, List.append_assoc,
    List.append_cancel_left_eq] at texts
  exact String.toList_injective texts

theorem created_types_nodup (table : String) (created : List String) (columns : List ColumnDef) :
    (createdTypeNames table created columns).Nodup := by
  induction columns generalizing created with
  | nil => exact List.nodup_nil
  | cons c rest ih =>
    unfold createdTypeNames
    cases c.type with
    | simple ty => exact ih created
    | complex ty =>
      cases ty with
      | enum name values =>
        dsimp only
        split
        · exact ih created
        · split
          · exact ih (name :: created)
          · refine List.nodup_cons.mpr ⟨?_, ih (name :: created)⟩
            intro again
            obtain ⟨other, same, fresh, _⟩ := mem_created_types.mp again
            exact fresh (enum_type_name_inj same ▸ List.mem_cons_self)
      | _ => exact ih created

def gainedHoldings (table : String) (columns : List ColumnDef) : List (ColumnKey × String) :=
  columns.filterMap fun c => (c.type.enumTypeName table).map fun type => ((table, c.name), type)

theorem mem_gained {table : String} {columns : List ColumnDef} {k : ColumnKey} {type : String} :
    (k, type) ∈ gainedHoldings table columns ↔
      k.1 = table ∧ ∃ c ∈ columns, c.name = k.2 ∧ c.type.enumTypeName table = some type := by
  obtain ⟨first, second⟩ := k
  simp only [gainedHoldings, List.mem_filterMap, Option.map_eq_some_iff, Prod.mk.injEq]
  constructor
  · rintro ⟨c, mem, own, held, ⟨rfl, rfl⟩, rfl⟩
    exact ⟨rfl, c, mem, rfl, held⟩
  · rintro ⟨rfl, c, mem, rfl, held⟩
    exact ⟨c, mem, type, held, ⟨rfl, rfl⟩, rfl⟩

theorem column_holds_mem {table : String} {columns : List ColumnDef}
    (nodup : (columns.map (·.name)).Nodup) {column type : String} :
    columnHolds table columns column = some type ↔
      ∃ c ∈ columns, c.name = column ∧ c.type.enumTypeName table = some type := by
  unfold columnHolds
  rw [Option.bind_eq_some_iff]
  constructor
  · rintro ⟨c, found, held⟩
    exact ⟨c, List.mem_of_find?_eq_some found, by simpa using List.find?_some found, held⟩
  · rintro ⟨c, mem, rfl, held⟩
    refine ⟨c, ?_, held⟩
    cases found : columns.find? (·.name = c.name) with
    | none => simpa using List.find?_eq_none.mp found c mem
    | some d =>
      have named : d.name = c.name := by simpa using List.find?_some found
      rw [List.inj_on_of_nodup_map nodup (List.mem_of_find?_eq_some found) mem named]

theorem created_table_runs {db : TypeStore} {table : String} {columns : List ColumnDef}
    {constraints : List TableConstraint} :
    runSteps runOnTypes db (createTableQueries .postgres table columns constraints) =
      (db.createAll (createdTypeNames table [] columns)).map
        (·.hold (gainedHoldings table columns)) := by
  have held : ∀ constraints' : List TableConstraint,
      (buildCreateTableForBackend .postgres table columns constraints').columns.filterMap
        (·.holding table) = gainedHoldings table columns := by
    intro constraints'
    simp only [buildCreateTableForBackend, List.filterMap_map, gainedHoldings]
    rfl
  have unique_idle : ∀ q ∈ constraints.flatMap (uniqueIndexes table), q.keepsTypes = true := by
    intro q mem
    obtain ⟨c, _, here⟩ := List.mem_flatMap.mp mem
    cases c <;> simp [uniqueIndexes] at here
    simp [here, BuiltQuery.keepsTypes]
  have plain_idle : ∀ q ∈ constraints.flatMap (plainIndexes table), q.keepsTypes = true := by
    intro q mem
    obtain ⟨c, _, here⟩ := List.mem_flatMap.mp mem
    cases c <;> simp [plainIndexes] at here
    simp [here, BuiltQuery.keepsTypes]
  unfold createTableQueries
  simp only [run_steps_append, create_types_run, reduceCtorEq, ↓reduceIte, false_or]
  cases db.createAll (createdTypeNames table [] columns) with
  | none => rfl
  | some db' =>
    simp only [Option.bind_some, runSteps, runOnTypes, Option.map_some, idle_run unique_idle,
      idle_run plain_idle]
    split
    · exact congrArg (fun gained => some (db'.hold gained)) (held constraints)
    · exact congrArg (fun gained => some (db'.hold gained)) (held _)

theorem string_led_column {columns : List ColumnDef} {name : String}
    (led : stringLed columns name = true) :
    ∃ c ∈ columns, c.type.enumName = some name ∧ c.type.isStringEnum = true := by
  unfold stringLed at led
  cases found : columns.find? (·.type.enumName = some name) with
  | none =>
    rw [found] at led
    cases led
  | some c =>
    rw [found] at led
    exact ⟨c, List.mem_of_find?_eq_some found, by simpa using List.find?_some found, led⟩

theorem string_enum_values {ty : ColumnType} {name : String} (string : ty.isStringEnum = true)
    (named : ty.enumName = some name) :
    ∃ values, ty = .complex (.enum name (.string values)) := by
  rcases enum_cases ty with ⟨own, values, rfl⟩ | ⟨own, items, rfl⟩ | ordinary
  · obtain rfl := Option.some.inj named
    exact ⟨values, rfl⟩
  · cases string
  · cases ordinary.symm.trans named

theorem string_enum_type {ty : ColumnType} {name table : String} (string : ty.isStringEnum = true)
    (named : ty.enumName = some name) :
    ty.enumTypeName table = some (buildEnumTypeName table name) := by
  obtain ⟨values, rfl⟩ := string_enum_values string named
  rfl

theorem create_table_balance_iff {schema : Schema} {db : TypeStore}
    (balanced : db.Balanced (schemaHolds schema)) {table : String} {columns : List ColumnDef}
    {constraints : List TableConstraint} (nodup : (columns.map (·.name)).Nodup)
    {queries : List BuiltQuery}
    (ok : (applyAction schema (.createTable table columns constraints)).error = none)
    (built : buildCreateTable .postgres table columns constraints = .ok queries) :
    RunsInBalance db queries
        (schemaHolds (applyAction schema (.createTable table columns constraints)).state) ↔
      KeepsBalance schema (.createTable table columns constraints) := by
  obtain ⟨absent, holds⟩ := create_table_holds ok
  rw [holds]
  simp only [buildCreateTable] at built
  cases normal : (TableDef.mk table none columns constraints).normalize with
  | error e =>
    rw [normal] at built
    cases built
  | ok t =>
    rw [normal] at built
    obtain rfl := Except.ok.inj built
    obtain rfl := normalize_value normal
    rw [RunsInBalance, created_table_runs, create_all (created_types_nodup table [] columns)]
    have reads : ∀ k a, (if k.1 = table then columnHolds table columns k.2
        else schemaHolds schema k) = some a ↔
        schemaHolds schema k = some a ∨ (k, a) ∈ gainedHoldings table columns := by
      intro k a
      rw [mem_gained]
      by_cases here : k.1 = table
      · have nothing : schemaHolds schema k = none := by
          rw [← absent k.2, ← here]
        rw [if_pos here, column_holds_mem nodup, nothing]
        simp [here]
      · simp [here]
    have needed : ∀ a ∈ createdTypeNames table [] columns,
        ∃ k, (k, a) ∈ gainedHoldings table columns := by
      intro a mem
      obtain ⟨name, rfl, _, led⟩ := mem_created_types.mp mem
      obtain ⟨c, here, type⟩ := string_led_column led
      exact ⟨(table, c.name), mem_gained.mpr ⟨rfl, c, here, rfl, string_enum_type type.2 type.1⟩⟩
    constructor
    · rintro ⟨db', ran, left⟩ c mem name values type
      by_cases free : ∀ a ∈ createdTypeNames table [] columns, a ∉ db.names
      · rw [if_pos free, Option.map_some, Option.some.injEq] at ran
        subst ran
        have covered := (grown_balanced_iff balanced reads needed).mp left
        constructor
        · intro led
          exact balanced.free.mp (free _ (mem_created_types.mpr ⟨name, rfl, by simp, led⟩))
        · intro unheld
          have gained : ((table, c.name), buildEnumTypeName table name) ∈
              gainedHoldings table columns :=
            mem_gained.mpr ⟨rfl, c, mem, rfl, by rw [type]; rfl⟩
          rcases covered _ _ gained with created | ⟨k', held⟩
          · obtain ⟨other, same, _, led⟩ := mem_created_types.mp created
            rwa [enum_type_name_inj same]
          · exact absurd held (unheld k')
      · rw [if_neg free] at ran
        cases ran
    · intro keeps
      have free : ∀ a ∈ createdTypeNames table [] columns, a ∉ db.names := by
        intro a mem
        obtain ⟨name, rfl, _, led⟩ := mem_created_types.mp mem
        obtain ⟨c, here, named, string⟩ := string_led_column led
        obtain ⟨values, type⟩ := string_enum_values string named
        exact balanced.free.mpr ((keeps c here name values type).mp led)
      rw [if_pos free, Option.map_some]
      refine ⟨_, rfl, (grown_balanced_iff balanced reads needed).mpr ?_⟩
      intro k a gained
      obtain ⟨_, c, mem, _, held⟩ := mem_gained.mp gained
      rcases enum_cases c.type with ⟨name, values, type⟩ | ⟨name, items, type⟩ | ordinary
      · rw [type] at held
        obtain rfl := Option.some.inj held
        by_cases led : stringLed columns name = true
        · exact .inl (mem_created_types.mpr ⟨name, rfl, by simp, led⟩)
        · have taken := mt (keeps c mem name values type).mpr led
          simp only [Free, not_forall, not_not] at taken
          exact .inr taken
      · rw [type] at held
        cases held
      · rw [plain_type_name ordinary] at held
        cases held

/-! A run of the plan -/

/-- The actions a computed plan is made of: no new names, no statements of the user. -/
def PlanAction : MigrationAction → Prop
  | .createTable _ columns _ => (columns.map (·.name)).Nodup
  | .modifyColumnType _ _ _ fillWith strategy timezone =>
      fillWith = none ∧ strategy = none ∧ timezone = none
  | .renameTable _ _ => False
  | .renameColumn _ _ _ => False
  | .rawSql _ => False
  | .dataMigration _ _ => False
  | _ => True

theorem balance_step_iff {schema : Schema} {db : TypeStore}
    (balanced : db.Balanced (schemaHolds schema)) {a : MigrationAction} (planned : PlanAction a)
    {pending : List TableConstraint} {queries : List BuiltQuery}
    (ok : (applyAction schema a).error = none)
    (built : buildActionQueriesWithPending .postgres a schema pending = .ok queries) :
    RunsInBalance db queries (schemaHolds (applyAction schema a).state) ↔ KeepsBalance schema a := by
  have kept : keepsColumnTypes a = true → (∀ q ∈ queries, q.keepsTypes = true) →
      RunsInBalance db queries (schemaHolds (applyAction schema a).state) := by
    intro keeps idle
    rw [action_keeps_holds keeps ok]
    exact ⟨db, idle_run idle, balanced⟩
  cases a with
  | createTable table columns constraints =>
    exact create_table_balance_iff balanced planned ok built
  | deleteTable table =>
    obtain rfl := Except.ok.inj built
    exact delete_table_balance_iff balanced
  | addColumn table column fillWith => exact add_column_balance_iff balanced ok built
  | deleteColumn table column =>
    obtain rfl := Except.ok.inj built
    exact delete_column_balance_iff balanced ok
  | modifyColumnType table column newType fillWith strategy timezone =>
    obtain ⟨rfl, rfl, rfl⟩ := planned
    obtain rfl : buildModifyColumnTypeDirect .postgres table column schema newType none =
      queries := Except.ok.inj built
    obtain ⟨c, found⟩ := retyped_column_found ok
    rw [retype_column_holds ok, retype_column_balance_iff balanced found]
    simp [KeepsBalance, found]
  | modifyColumnNullable table column nullable fillWith delete =>
    have nullability : buildModifyColumnNullable .postgres table column schema pending nullable
        fillWith (delete.getD false) = .ok queries := built
    exact iff_of_true (kept rfl (nullable_idle nullability)) trivial
  | modifyColumnDefault table column newDefault backfill =>
    have defaults : buildModifyColumnDefault .postgres table column schema pending newDefault
        backfill = .ok queries := built
    exact iff_of_true (kept rfl (default_idle defaults)) trivial
  | modifyColumnComment table column newComment =>
    obtain rfl := Except.ok.inj built
    exact iff_of_true (kept rfl (by simp [BuiltQuery.keepsTypes])) trivial
  | addConstraint table constraint =>
    exact iff_of_true (kept rfl (added_constraint_idle built)) trivial
  | removeConstraint table constraint =>
    obtain rfl := Except.ok.inj built
    exact iff_of_true (kept rfl (removed_constraint_idle constraint)) trivial
  | replaceConstraint table old new =>
    exact iff_of_true (kept rfl (replaced_constraint_idle built)) trivial
  | remapEnumValues table column mapping =>
    obtain rfl := Except.ok.inj built
    exact iff_of_true (kept rfl (remap_idle column mapping)) trivial
  | _ => exact planned.elim

/-- The types of the database are those of the string-enum columns, and the columns that
    have one are these columns. -/
structure InBalance (db : TypeStore) (schema : Schema) : Prop where
  types : ∀ type, type ∈ db.names ↔ type ∈ schemaEnumTypes schema
  uses : ∀ k type, (k, type) ∈ db.held ↔ schemaHolds schema k = some type

theorem mem_schema_types {schema : Schema} (tables : TableNamesNodup schema)
    (distinct : DistinctColumns schema) {type : String} :
    type ∈ schemaEnumTypes schema ↔ ∃ k, schemaHolds schema k = some type := by
  simp only [schemaEnumTypes, List.mem_flatMap, List.mem_filterMap]
  constructor
  · rintro ⟨t, mem, c, here, held⟩
    refine ⟨(t.name, c.name), ?_⟩
    rw [schemaHolds, table_at_mem tables mem, Option.bind_some]
    exact (column_holds_mem (distinct t mem)).mpr ⟨c, here, rfl, held⟩
  · rintro ⟨k, held⟩
    obtain ⟨t, found, columns⟩ := Option.bind_eq_some_iff.mp held
    obtain ⟨mem, named⟩ := table_at_name found
    obtain ⟨c, here, _, own⟩ := (column_holds_mem (distinct t mem)).mp columns
    exact ⟨t, mem, c, here, named ▸ own⟩

theorem in_balance_iff {schema : Schema} (tables : TableNamesNodup schema)
    (distinct : DistinctColumns schema) {db : TypeStore} :
    InBalance db schema ↔ db.Balanced (schemaHolds schema) := by
  constructor
  · intro balanced
    refine ⟨balanced.uses, fun type => ?_⟩
    rw [balanced.types, mem_schema_types tables distinct]
  · intro balanced
    refine ⟨fun type => ?_, balanced.held⟩
    rw [balanced.names, mem_schema_types tables distinct]

theorem baseline_in_balance {schema : Schema} (tables : TableNamesNodup schema)
    (distinct : DistinctColumns schema) : InBalance (typeStoreOf schema) schema := by
  refine ⟨fun _ => Iff.rfl, fun k type => ?_⟩
  obtain ⟨first, second⟩ := k
  simp only [typeStoreOf, List.mem_flatMap, List.mem_filterMap, Option.map_eq_some_iff,
    Prod.mk.injEq]
  constructor
  · rintro ⟨t, mem, c, here, own, held, ⟨rfl, rfl⟩, rfl⟩
    rw [schemaHolds, table_at_mem tables mem, Option.bind_some]
    exact (column_holds_mem (distinct t mem)).mpr ⟨c, here, rfl, held⟩
  · intro held
    obtain ⟨t, found, columns⟩ := Option.bind_eq_some_iff.mp held
    obtain ⟨mem, named⟩ := table_at_name found
    obtain ⟨c, here, same, own⟩ := (column_holds_mem (distinct t mem)).mp columns
    exact ⟨t, mem, c, here, type, named ▸ own, ⟨named, same⟩, rfl⟩

theorem plan_action_distinct {a : MigrationAction} (planned : PlanAction a) : BringsDistinct a := by
  cases a <;> first | exact planned | trivial

def evolvedSchema (schema : Schema) (actions : List MigrationAction) : Schema :=
  actions.foldl (fun s a => (applyAction s a).state) schema

theorem balance_run_iff {plan : MigrationPlan} {actions : List MigrationAction} {i : Nat}
    {schema s' : Schema} {db : TypeStore} {queries : List PlanQueries}
    (tables : TableNamesNodup schema) (distinct : DistinctColumns schema)
    (planned : ∀ a ∈ actions, PlanAction a) (applied : applyActions schema actions = .ok s')
    (built : buildQueriesFrom plan i actions schema = .ok queries)
    (balanced : InBalance db schema) :
    (∀ count ≤ actions.length, ∃ db',
      runSteps runOnTypes db ((queries.take count).flatMap (·.postgres)) = some db' ∧
        InBalance db' (evolvedSchema schema (actions.take count))) ↔
      Along KeepsBalance schema actions := by
  induction actions generalizing i schema db queries with
  | nil =>
    refine iff_of_true ?_ trivial
    intro count _
    obtain rfl := Except.ok.inj built
    exact ⟨db, by simp [runSteps], by simpa [evolvedSchema] using balanced⟩
  | cons a rest ih =>
    obtain ⟨own, later, rfl, statements, tail⟩ := built_cons built
    obtain ⟨first, others⟩ := List.forall_mem_cons.mp planned
    rw [apply_actions_cons] at applied
    cases step : (applyAction schema a).toExcept with
    | error e =>
      rw [step] at applied
      cases applied
    | ok next =>
      rw [step] at applied
      have next_tables := apply_action_nodup tables step
      obtain ⟨ok, rfl⟩ := to_except_ok.mp step
      have next_distinct := action_distinct distinct (plan_action_distinct first)
      have holds := (in_balance_iff tables distinct).mp balanced
      have own_step := balance_step_iff holds first ok (statements .postgres)
      constructor
      · intro stays
        obtain ⟨db', ran, left⟩ := stays 1 (by simp)
        have ran' : runSteps runOnTypes db own.postgres = some db' := by simpa using ran
        have left' : InBalance db' (applyAction schema a).state := by
          simpa [evolvedSchema] using left
        refine ⟨own_step.mp ⟨db', ran', (in_balance_iff next_tables next_distinct).mp left'⟩, ?_⟩
        refine (ih next_tables next_distinct others applied tail left').mp fun count bound => ?_
        obtain ⟨db'', ran'', left''⟩ := stays (count + 1) (by simpa using bound)
        refine ⟨db'', ?_, by simpa [evolvedSchema] using left''⟩
        rwa [List.take_succ_cons, List.flatMap_cons, run_steps_append, ran', Option.bind_some]
          at ran''
      · rintro ⟨here, along⟩ count bound
        cases count with
        | zero => exact ⟨db, by simp [runSteps], by simpa [evolvedSchema] using balanced⟩
        | succ count =>
          obtain ⟨db', ran, left⟩ := own_step.mpr here
          have left' := (in_balance_iff next_tables next_distinct).mpr left
          have bound' : count ≤ rest.length := by simpa using bound
          obtain ⟨db'', ran', left''⟩ :=
            (ih next_tables next_distinct others applied tail left').mpr along count bound'
          refine ⟨db'', ?_, by simpa [evolvedSchema] using left''⟩
          rw [List.take_succ_cons, List.flatMap_cons, run_steps_append]
          exact (congrArg (Option.bind · _) ran).trans ran'

theorem Planned.plan_actions {fromSchema toSchema created : List TableDef}
    {edits : String → List MigrationAction} {actions : List MigrationAction}
    (planned : Planned fromSchema toSchema created edits actions) :
    ∀ a ∈ actions, PlanAction a := by
  intro a mem
  rw [planned.actions_eq] at mem
  simp only [List.mem_append, List.mem_map, List.mem_flatMap] at mem
  rcases mem with ((⟨u, listed, rfl⟩ | ⟨name, _, rfl⟩) | ⟨name, _, here⟩) | ⟨name, _, here⟩
  · have there := ((planned.mem_created u).mp listed).1
    exact (table_get_regular planned.to_regular there).1.nodup
  · trivial
  · unfold earlyBlock at here
    split at here
    · rename_i t u found target
      simp only [tableActions, columnActions, List.mem_append, List.mem_map] at here
      rcases here with ((((⟨_, _, rfl⟩ | edit) | ⟨_, _, rfl⟩) | replaces) | ⟨_, _, rfl⟩) | ⟨_, _, rfl⟩
      · trivial
      · obtain ⟨fromDef, toDef, _, _, change⟩ :=
          attribute_edit_of ((planned.edits_perm name t u found target).mem_iff.mp edit)
        rcases column_edit_cases change with ⟨rfl, _⟩ | ⟨rfl, _⟩ | rfl | rfl | rfl
        · exact ⟨rfl, rfl, rfl⟩
        · trivial
        · trivial
        · trivial
        · trivial
      · trivial
      · obtain ⟨old, new, rfl, _⟩ := replacements_replace a replaces
        trivial
      · trivial
      · trivial
    · cases here
  · unfold lateBlock at here
    split at here
    · obtain ⟨c, _, rfl⟩ := List.mem_map.mp here
      trivial
    · cases here

/-- The enum types are created and dropped in balance, after every action that a plan gets to,
    exactly where every step of it keeps the balance. -/
theorem enum_types_balanced_iff {baseline target schema : List TableDef} {plan : MigrationPlan}
    {queries : List PlanQueries} (nodup : TableNamesNodup baseline)
    (diffed : diffSchemas baseline target = .ok plan)
    (built : buildPlanQueriesSequentially plan baseline = .ok queries)
    (applied : applyActions baseline plan.actions = .ok schema) :
    (∀ count ≤ plan.actions.length, ∃ db', runSteps runOnTypes (typeStoreOf baseline)
        ((queries.take count).flatMap (·.postgres)) = some db' ∧
        InBalance db' (evolvingSchema plan baseline count)) ↔
      Along KeepsBalance baseline plan.actions := by
  obtain ⟨created, edits, planned⟩ := diff_schemas_planned diffed
  have distinct : DistinctColumns baseline := fun t mem => (planned.from_regular t mem).nodup
  exact balance_run_iff nodup distinct planned.plan_actions applied built
    (baseline_in_balance nodup distinct)

def ticketTable (enums : List ColumnDef) : TableDef :=
  ⟨"ticket", none, .new "id" (.simple .integer) false :: enums, []⟩

def statusColumn : ColumnDef :=
  .new "status" (.complex (.enum "status" (.string ["open", "closed"]))) true

def levelColumn : ColumnDef :=
  .new "level" (.complex (.enum "level" (.integer [⟨"low", 1⟩]))) true

def planOf (actions : List MigrationAction) : MigrationPlan := ⟨"", none, none, 0, actions⟩

set_option maxRecDepth 100000 in
theorem status_plan : diffSchemas [ticketTable []] [ticketTable [statusColumn]] =
    .ok (planOf [.addColumn "ticket" statusColumn none]) := by decide

def statusQueries : PlanQueries :=
  { action := .addColumn "ticket" statusColumn none
    postgres := [.createEnumType "CREATE TYPE \"ticket_status\" AS ENUM ('open', 'closed')",
      .addColumn "ticket" (buildSeaColumnDef statusColumn)]
    mysql := [.createEnumType "CREATE TYPE \"ticket_status\" AS ENUM ('open', 'closed')",
      .addColumn "ticket" (buildSeaColumnDef statusColumn)]
    sqlite := (buildAddColumn .sqlite "ticket" [ticketTable []] [] statusColumn none).toOption.getD [] }

theorem status_balanced : (∀ count ≤ 1, ∃ db', runSteps runOnTypes (typeStoreOf [ticketTable []])
      (([statusQueries].take count).flatMap (·.postgres)) = some db' ∧
      InBalance db' (evolvingSchema (planOf [.addColumn "ticket" statusColumn none])
        [ticketTable []] count)) ↔
    Along KeepsBalance [ticketTable []] [.addColumn "ticket" statusColumn none] :=
  enum_types_balanced_iff (by decide) status_plan (by rfl) (by rfl)

set_option maxRecDepth 100000 in
theorem level_plan : diffSchemas [ticketTable [levelColumn]] [ticketTable []] =
    .ok (planOf [.deleteColumn "ticket" "level"]) := by decide

/-- The type of an integer enum was never created, and is dropped with its column. -/
theorem integer_enum_dropped : ¬ ∀ baseline target plan queries schema,
    TableNamesNodup baseline → diffSchemas baseline target = .ok plan →
    buildPlanQueriesSequentially plan baseline = .ok queries →
    applyActions baseline plan.actions = .ok schema →
    ∃ db', runSteps runOnTypes (typeStoreOf baseline) (queries.flatMap (·.postgres)) = some db' ∧
      ∀ type, type ∈ db'.names ↔ type ∈ schemaEnumTypes schema := by
  intro balanced
  obtain ⟨db', ran, _⟩ := balanced _ _ _ [⟨.deleteColumn "ticket" "level",
    buildDirectDeleteColumn "ticket" "level" (some levelColumn.type),
    buildDirectDeleteColumn "ticket" "level" (some levelColumn.type),
    buildDeleteColumn .sqlite "ticket" "level" [ticketTable [levelColumn]] []
      (some levelColumn.type)⟩] [ticketTable []] (by decide) level_plan (by rfl) (by rfl)
  have refused : runSteps runOnTypes (typeStoreOf [ticketTable [levelColumn]])
      (buildDirectDeleteColumn "ticket" "level" (some levelColumn.type)) = none := by decide
  have ran' := ran
  simp only [List.flatMap_cons, List.flatMap_nil, List.append_nil, refused] at ran'
  cases ran'

end Vespertide
