import Vespertide.PlanShape

/-!
Replay of a computed plan, table by table: each table meets a creation, a drop,
or the actions of its own block, and the blocks decide whether the plan applies.
-/
namespace Vespertide
open Components

variable {fromSchema toSchema created : List TableDef} {edits : String → List MigrationAction}
  {actions : List MigrationAction}

theorem table_at_get {schema : Schema} (nodup : TableNamesNodup schema) (name : String) :
    tableAt schema name = tableGet schema name := by
  cases found : tableGet schema name with
  | none => exact table_at_none.mpr (KeyedView.get_eq_none_iff.mp found)
  | some t =>
    obtain ⟨mem, rfl⟩ := KeyedView.get_some found
    exact table_at_mem nodup mem

def orderedAdditions (createdTables : List String) (name : String) (t u : TableDef) :
    List TableConstraint :=
  (additions name t u).filter (! needsCreated createdTables ·) ++
    (additions name t u).filter (needsCreated createdTables ·)

theorem mem_ordered_additions {createdTables : List String} {name : String} {t u : TableDef}
    {c : TableConstraint} :
    c ∈ orderedAdditions createdTables name t u ↔ c ∈ additions name t u := by
  rw [orderedAdditions, List.mem_append, List.mem_filter, List.mem_filter, ← and_or_left]
  cases needsCreated createdTables c <;> simp

def tablePlan (fromSchema toSchema : List TableDef) (createdTables : List String)
    (edits : String → List MigrationAction) (name : String) : List MigrationAction :=
  match tableGet fromSchema name, tableGet toSchema name with
  | none, none => []
  | some _, none => [.deleteTable name]
  | none, some u => [createOf u]
  | some t, some u => tableActions name t (normalized u) (edits name)
      (orderedAdditions createdTables name t (normalized u))

theorem step_create_new {u : TableDef} (regular : Regular u) :
    stepTable (createOf u) none = some (some { normalized u with description := none }) := by
  have own : Regular { u with description := none } := ⟨regular.nodup, regular.inlines⟩
  have normal : (TableDef.mk u.name none u.columns u.constraints).normalize =
      .ok (normalized { u with description := none }) := normalize_regular own
  simp only [stepTable, createOf, Option.isSome_none, Bool.false_eq_true, ↓reduceIte, normal]
  rfl

section Planned
variable (planned : Planned fromSchema toSchema created edits actions)
include planned

theorem Planned.block_edit {name : String} {a : MigrationAction}
    (mem : a ∈ earlyBlock fromSchema toSchema (created.map (·.name)) edits name) :
    actionTable a = name ∧ isEdit a = true := by
  unfold earlyBlock at mem
  split at mem
  · rename_i t u here there
    exact table_action_edit (u := normalized u) (planned.edits_perm name t u here there) mem
  · cases mem

theorem Planned.created_at_new {u : TableDef} (mem : u ∈ created) :
    actionsAt actionTable u.name (created.map createOf) = [createOf u] := by
  rw [List.map_eq_flatMap]
  apply actions_at_block _ planned.created_nodup mem
  intro t _ a here
  obtain rfl := List.mem_singleton.mp here
  rfl

theorem Planned.created_at_other {name : String}
    (other : ∀ u, tableGet toSchema name = some u → tableGet fromSchema name ≠ none) :
    actionsAt actionTable name (created.map createOf) = [] := by
  apply actions_at_other
  intro a mem same
  obtain ⟨u, listed, rfl⟩ := List.mem_map.mp mem
  obtain rfl : u.name = name := same
  obtain ⟨there, absent⟩ := (planned.mem_created u).mp listed
  exact other u there absent

omit planned in
theorem mem_dropped_names {name : String} : name ∈ droppedNames fromSchema toSchema ↔
    tableGet fromSchema name ≠ none ∧ tableGet toSchema name = none := by
  simp only [droppedNames, List.mem_filter, mem_table_keys, Option.isNone_iff_eq_none,
    Option.isSome_iff_ne_none]

omit planned in
theorem dropped_names_nodup : (droppedNames fromSchema toSchema).Nodup :=
  (KeyedView.keys_nodup _ _).filter _

omit planned in
theorem drops_at (name : String) : actionsAt actionTable name
    ((dropOrder (droppedNames fromSchema toSchema) (fromSchema.map normalized)).map .deleteTable) =
    if name ∈ droppedNames fromSchema toSchema then [.deleteTable name] else [] := by
  have perm := drop_order_perm (droppedNames fromSchema toSchema) (fromSchema.map normalized)
  have nodup := perm.nodup_iff.mpr dropped_names_nodup
  have same : name ∈ _ ↔ name ∈ _ := perm.mem_iff
  rw [List.map_eq_flatMap]
  generalize dropOrder (droppedNames fromSchema toSchema) (fromSchema.map normalized) = drops
    at nodup same
  have own : ∀ n ∈ drops, ∀ a ∈ [MigrationAction.deleteTable n], actionTable a = id n := by
    intro n _ a here
    obtain rfl := List.mem_singleton.mp here
    rfl
  split
  · rename_i listed
    exact actions_at_block own (by rwa [List.map_id]) (same.mpr listed)
  · rename_i absent
    exact actions_at_absent_block own (by rwa [List.map_id, same])

theorem Planned.early_at (name : String) : actionsAt actionTable name ((tableKeys toSchema).flatMap
      (earlyBlock fromSchema toSchema (created.map (·.name)) edits)) =
    earlyBlock fromSchema toSchema (created.map (·.name)) edits name := by
  have own : ∀ n ∈ tableKeys toSchema, ∀ a ∈ earlyBlock fromSchema toSchema
      (created.map (·.name)) edits n, actionTable a = id n :=
    fun n _ a mem => (planned.block_edit mem).1
  by_cases listed : name ∈ tableKeys toSchema
  · exact actions_at_block own (by rw [List.map_id]; exact KeyedView.keys_nodup _ _) listed
  · rw [actions_at_absent_block own (by rwa [List.map_id])]
    rw [mem_table_keys, Option.not_isSome_iff_eq_none] at listed
    simp [earlyBlock, listed]

omit planned in
theorem late_at (createdTables : List String) (name : String) :
    actionsAt actionTable name ((tableKeys toSchema).flatMap
      (lateBlock fromSchema toSchema createdTables)) =
    lateBlock fromSchema toSchema createdTables name := by
  have own : ∀ n ∈ tableKeys toSchema, ∀ a ∈ lateBlock fromSchema toSchema createdTables n,
      actionTable a = id n := by
    intro n _ a mem
    unfold lateBlock at mem
    split at mem
    · obtain ⟨c, _, rfl⟩ := List.mem_map.mp mem
      rfl
    · cases mem
  by_cases listed : name ∈ tableKeys toSchema
  · exact actions_at_block own (by rw [List.map_id]; exact KeyedView.keys_nodup _ _) listed
  · rw [actions_at_absent_block own (by rwa [List.map_id])]
    rw [mem_table_keys, Option.not_isSome_iff_eq_none] at listed
    simp [lateBlock, listed]

theorem Planned.actions_at (name : String) : actionsAt actionTable name actions =
    tablePlan fromSchema toSchema (created.map (·.name)) edits name := by
  rw [planned.actions_eq, actions_at_append, actions_at_append, actions_at_append,
    planned.early_at, late_at, drops_at]
  unfold tablePlan earlyBlock lateBlock
  cases here : tableGet fromSchema name with
  | none =>
    have kept : name ∉ droppedNames fromSchema toSchema := by simp [mem_dropped_names, here]
    cases there : tableGet toSchema name with
    | none =>
      rw [planned.created_at_other (by simp [there]), if_neg kept]
      rfl
    | some u =>
      obtain rfl := (KeyedView.get_some there).2
      rw [planned.created_at_new ((planned.mem_created u).mpr ⟨there, here⟩), if_neg kept]
      rfl
  | some t =>
    rw [planned.created_at_other (by simp [here])]
    cases there : tableGet toSchema name with
    | none =>
      have dropped : name ∈ droppedNames fromSchema toSchema := by
        simp [mem_dropped_names, here, there]
      rw [if_pos dropped]
      rfl
    | some u =>
      have kept : name ∉ droppedNames fromSchema toSchema := by simp [mem_dropped_names, there]
      rw [if_neg kept]
      simp [tableActions, orderedAdditions]

theorem Planned.attribute_edit_iff {a : MigrationAction} {column : String}
    {f : ColumnDef → ColumnDef} (edits_column : columnEdit a = some (column, f)) :
    a ∈ actions ↔ ∃ t u fromDef toDef, tableGet fromSchema (actionTable a) = some t ∧
      tableGet toSchema (actionTable a) = some u ∧
      columnGet t.columns toDef.name = some fromDef ∧
      columnGet u.columns toDef.name = some toDef ∧
      a ∈ columnEditsOf (actionTable a) fromDef toDef := by
  have own : a ∈ actions ↔
      a ∈ tablePlan fromSchema toSchema (created.map (·.name)) edits (actionTable a) := by
    rw [← planned.actions_at, actionsAt, List.mem_filter]
    simp
  rw [own]
  generalize actionTable a = table
  constructor
  · intro mem
    unfold tablePlan at mem
    split at mem
    · cases mem
    · obtain rfl := List.mem_singleton.mp mem
      cases edits_column
    · obtain rfl := List.mem_singleton.mp mem
      cases edits_column
    · rename_i t u here there
      rcases table_action_cases (u := normalized u) (planned.edits_perm table t u here there) mem with
        ⟨_, _, rfl⟩ | edit | ⟨_, _, rfl⟩ | ⟨_, _, rfl, _⟩ | ⟨_, _, rfl⟩ | ⟨_, _, rfl⟩
      · cases edits_column
      · obtain ⟨fromDef, toDef, from_here, to_here, edit⟩ := mem_attribute_edits.mp edit
        exact ⟨t, u, fromDef, toDef, here, there, from_here, to_here, edit⟩
      · cases edits_column
      · cases edits_column
      · cases edits_column
      · cases edits_column
  · rintro ⟨t, u, fromDef, toDef, here, there, from_here, to_here, edit⟩
    have listed : a ∈ edits table :=
      (planned.edits_perm table t u here there).mem_iff.mpr
        (mem_attribute_edits.mpr ⟨fromDef, toDef, from_here, to_here, edit⟩)
    unfold tablePlan
    rw [here, there]
    simp only [tableActions, columnActions, List.mem_append]
    exact .inl (.inl (.inl (.inl (.inr listed))))

theorem Planned.actions_local : ∀ a ∈ actions, isLocal a = true := by
  have edit_local : ∀ a, isEdit a = true → isLocal a = true := by
    intro a edit
    cases a <;> first | rfl | cases edit
  rw [planned.actions_eq]
  intro a mem
  simp only [List.mem_append, List.mem_map, List.mem_flatMap] at mem
  rcases mem with ((⟨t, _, rfl⟩ | ⟨name, _, rfl⟩) | ⟨name, _, here⟩) | ⟨name, _, here⟩
  · rfl
  · rfl
  · exact edit_local a (planned.block_edit here).2
  · unfold lateBlock at here
    split at here
    · obtain ⟨c, _, rfl⟩ := List.mem_map.mp here
      rfl
    · cases here

/-! When a plan applies -/

theorem Planned.block_replays {name : String} {t u : TableDef}
    (here : tableGet fromSchema name = some t) (there : tableGet toSchema name = some u)
    (added : List TableConstraint) :
    run stepTable (tableActions name t (normalized u) (edits name) added) (some t) =
      (run editStep (tableActions name t (normalized u) (edits name) added) t).map some := by
  apply run_edits
  intro a mem
  exact (table_action_edit (u := normalized u) (planned.edits_perm name t u here there) mem).2

theorem Planned.table_replays_iff (name : String) :
    (∃ r, run stepTable (tablePlan fromSchema toSchema (created.map (·.name)) edits name)
      (tableGet fromSchema name) = some r) ↔
    ∀ t u, tableGet fromSchema name = some t → tableGet toSchema name = some u →
      Replaceable t (normalized u) := by
  unfold tablePlan
  cases here : tableGet fromSchema name with
  | none =>
    cases there : tableGet toSchema name with
    | none => simp
    | some u =>
      obtain ⟨regular, _⟩ := table_get_regular planned.to_regular there
      simp [step_create_new regular]
  | some t =>
    cases there : tableGet toSchema name with
    | none => simp [stepTable]
    | some u =>
      obtain ⟨regular, _⟩ := table_get_regular planned.from_regular here
      have applies := run_table_actions_iff (u := normalized u) regular
        (planned.edits_perm name t u here there)
        (orderedAdditions (created.map (·.name)) name t (normalized u))
      dsimp only
      rw [planned.block_replays here there]
      constructor
      · rintro ⟨r, ran⟩ t' u' here' there'
        obtain rfl := Option.some.inj here'
        obtain rfl := Option.some.inj there'
        obtain ⟨t', reached, _⟩ := Option.map_eq_some_iff.mp ran
        exact applies.mp ⟨t', reached⟩
      · intro replaceable
        obtain ⟨t', reached⟩ := applies.mpr (replaceable t u rfl rfl)
        exact ⟨some t', by rw [reached, Option.map_some]⟩

theorem Planned.replays_iff (nodup : TableNamesNodup fromSchema) :
    (∃ s', applyActions fromSchema actions = .ok s') ↔
      ∀ t ∈ fromSchema, ∀ u, tableGet toSchema t.name = some u → Replaceable t (normalized u) := by
  rw [replay_ok_iff nodup planned.actions_local]
  simp only [planned.actions_at, table_at_get nodup, planned.table_replays_iff]
  constructor
  · intro all t mem u there
    exact all t.name t u (KeyedView.get_of_nodup nodup mem) there
  · intro all name t u here there
    obtain ⟨mem, rfl⟩ := KeyedView.get_some here
    exact all t mem u there

end Planned

/-- A computed plan applies to its baseline exactly when, in every table that stays,
    the constraints to be replaced are still there once the columns are done. -/
theorem plan_replays_iff {plans : List MigrationPlan} {baseline target : List TableDef}
    {plan : MigrationPlan} (replayed : schemaFromPlans plans = .ok baseline)
    (diffed : diffSchemas baseline target = .ok plan) :
    (∃ s', applyActions baseline plan.actions = .ok s') ↔
      ∀ t ∈ baseline, ∀ u, tableGet target t.name = some u → Replaceable t (normalized u) := by
  obtain ⟨created, edits, planned⟩ := diff_schemas_planned diffed
  exact planned.replays_iff (schema_from_plans_nodup replayed)

def creationPlan (tables : List TableDef) : MigrationPlan :=
  ⟨"", none, none, 1, tables.map createOf⟩

def lineTable (keyColumns : List String) : TableDef :=
  ⟨"line", none, keyColumns.map (.new · (.simple .integer) false),
    [.primaryKey false keyColumns .default]⟩

set_option maxRecDepth 100000 in
theorem line_history : schemaFromPlans [creationPlan [lineTable ["order", "item"]]] =
    .ok [lineTable ["order", "item"]] := by
  decide

set_option maxRecDepth 100000 in
theorem line_plan : diffSchemas [lineTable ["order", "item"]] [lineTable ["order"]] =
    .ok ⟨"", none, none, 0, [.deleteColumn "line" "item",
      .replaceConstraint "line" (.primaryKey false ["order", "item"] .default)
        (.primaryKey false ["order"] .default)]⟩ := by
  decide

theorem line_replays_iff :
    (∃ s', applyActions [lineTable ["order", "item"]] [.deleteColumn "line" "item",
      .replaceConstraint "line" (.primaryKey false ["order", "item"] .default)
        (.primaryKey false ["order"] .default)] = .ok s') ↔
    ∀ t ∈ [lineTable ["order", "item"]], ∀ u, tableGet [lineTable ["order"]] t.name = some u →
      Replaceable t (normalized u) :=
  plan_replays_iff line_history line_plan

/-- Dropping the column shrinks the key that is then to be replaced by its old columns. -/
theorem shrunk_key_not_replaced :
    ¬ ∀ plans baseline target plan, schemaFromPlans plans = .ok baseline →
      diffSchemas baseline target = .ok plan →
      ∃ s', applyActions baseline plan.actions = .ok s' := by
  intro applies
  obtain ⟨s', ok⟩ := applies _ _ _ _ line_history line_plan
  have created_edits := diff_schemas_planned line_plan
  obtain ⟨_, _, planned⟩ := created_edits
  have replaceable := (planned.replays_iff (schema_from_plans_nodup line_history)).mp ⟨s', ok⟩
    _ List.mem_cons_self _ rfl
  have carried := replaceable (.primaryKey false ["order", "item"] .default) (by decide)
  revert carried
  decide

end Vespertide
