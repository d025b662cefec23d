import Vespertide.Convergence
import Vespertide.Drops
import Vespertide.Recreation

/-!
Replay of a plan rewritten for recreation. Every other table meets the actions it
met before; a table that is created anew meets at most changes of its enum values
ahead of its drop, and is left as the target declares it.
-/
namespace Vespertide
open Components

def KeptTables (fromSchema toSchema : List TableDef) (names : List String) : Prop :=
  ∀ name ∈ names, ∃ t u, tableGet fromSchema name = some t ∧ tableGet toSchema name = some u

/-! The actions of a table in the rewritten plan -/

def rewritten (toSchema : List TableDef) (names : List String) (actions : List MigrationAction) :
    List MigrationAction :=
  actions.filter (outsideRecreation names) ++ names.flatMap (recreation toSchema)

section Actions
variable {fromSchema toSchema : List TableDef} {names : List String}
  {actions : List MigrationAction} (distinct : TableNamesNodup toSchema)
  (kept : KeptTables fromSchema toSchema names)

theorem superseded_own {a : MigrationAction} {table : String}
    (superseded : supersededTable a = some table) : actionTable a = table := by
  cases a <;> first | exact Option.some.inj superseded | cases superseded

theorem outside_of_other {a : MigrationAction} (other : actionTable a ∉ names) :
    outsideRecreation names a = true := by
  unfold outsideRecreation
  cases superseded : supersededTable a with
  | none => rfl
  | some table =>
    rw [superseded_own superseded] at other
    simpa using other

theorem recreation_own {name : String} {a : MigrationAction} (mem : a ∈ recreation toSchema name) :
    actionTable a = name := by
  unfold recreation at mem
  split at mem
  · rename_i model found
    have named : model.name = name := (table_at_name found).2
    rcases List.mem_cons.mp mem with rfl | rest
    · rfl
    · rw [List.mem_singleton.mp rest]
      exact named
  · cases mem

include distinct in
theorem recreation_of {name : String} {u : TableDef} (there : tableGet toSchema name = some u) :
    recreation toSchema name = [.deleteTable name, createOf u] := by
  have found : toSchema.find? (·.name = name) = some u := (table_at_get distinct name).trans there
  simp only [recreation, found]
  rfl

theorem rewritten_at_other {name : String} (other : name ∉ names) :
    actionsAt actionTable name (rewritten toSchema names actions) =
      actionsAt actionTable name actions := by
  have none_new : actionsAt actionTable name (names.flatMap (recreation toSchema)) = [] :=
    @actions_at_absent_block _ _ _ _ _ id names (recreation toSchema)
      (fun n _ a mem => recreation_own mem) _ (by simpa)
  rw [rewritten, actions_at_append, none_new, List.append_nil]
  simp only [actionsAt, List.filter_filter]
  apply List.filter_congr
  intro a _
  by_cases own : actionTable a = name
  · simp [own, outside_of_other (own ▸ other)]
  · simp [own]

include distinct in
theorem rewritten_at_own (nodup : names.Nodup) {name : String} (listed : name ∈ names)
    {u : TableDef} (there : tableGet toSchema name = some u) :
    actionsAt actionTable name (rewritten toSchema names actions) =
      (actionsAt actionTable name actions).filter (outsideRecreation names) ++
        [.deleteTable name, createOf u] := by
  have own := @actions_at_block _ _ _ _ _ id _ (recreation toSchema)
    (fun n _ a mem => @recreation_own _ n _ mem) (by simpa using nodup) _ listed
  rw [id, recreation_of distinct there] at own
  rw [rewritten, actions_at_append, own]
  simp only [actionsAt, List.filter_filter, Bool.and_comm]

end Actions

/-! Tables created anew -/

section Planned
variable {fromSchema toSchema created : List TableDef} {edits : String → List MigrationAction}
  {actions : List MigrationAction} (planned : Planned fromSchema toSchema created edits actions)
  {names : List String}
include planned

theorem Planned.outside_edit {name : String} (listed : name ∈ names) {t u : TableDef}
    (here : tableGet fromSchema name = some t) (there : tableGet toSchema name = some u)
    {a : MigrationAction}
    (mem : a ∈ (actionsAt actionTable name actions).filter (outsideRecreation names)) :
    ∃ column f, columnEdit a = some (column, f) ∧ column ∈ t.columnNames := by
  obtain ⟨own, outside⟩ := List.mem_filter.mp mem
  rw [planned.actions_at, tablePlan, here, there] at own
  have apart : supersededTable a ≠ some name := by
    intro superseded
    simp [outsideRecreation, superseded, listed] at outside
  rcases table_action_cases (u := normalized u) (planned.edits_perm name t u here there) own with
    ⟨_, _, rfl⟩ | edit | ⟨_, _, rfl⟩ | ⟨_, _, rfl, _⟩ | ⟨_, _, rfl⟩ | ⟨_, _, rfl⟩
  · exact absurd rfl apart
  · obtain ⟨fromDef, toDef, held, _, of_column⟩ := attribute_edit_of edit
    obtain ⟨f, about⟩ := column_edit_of of_column
    obtain ⟨c_mem, named⟩ := KeyedView.get_some held
    exact ⟨toDef.name, f, about, List.mem_map.mpr ⟨fromDef, c_mem, named⟩⟩
  · exact absurd rfl apart
  · exact absurd rfl apart
  · exact absurd rfl apart
  · exact absurd rfl apart

theorem Planned.outside_run {name : String} (listed : name ∈ names) {t u : TableDef}
    (here : tableGet fromSchema name = some t) (there : tableGet toSchema name = some u)
    {before after : List MigrationAction}
    (split : (actionsAt actionTable name actions).filter (outsideRecreation names) =
      before ++ after) :
    run stepTable before (some t) =
      some (some { t with columns := t.columns.map (editAll before) }) := by
  have edits : ∀ a ∈ before, ∃ column f, columnEdit a = some (column, f) ∧
      column ∈ t.columnNames := fun a mem =>
    planned.outside_edit listed here there (split ▸ List.mem_append_left after mem)
  rw [run_edits]
  · rw [run_column_edits (table_get_regular planned.from_regular here).1.nodup edits]
    rfl
  · intro a mem
    obtain ⟨column, f, about, _⟩ := edits a mem
    cases a <;> first | rfl | cases about

variable (distinct : TableNamesNodup toSchema) (nodup : names.Nodup)
  (kept : KeptTables fromSchema toSchema names)
include distinct nodup kept

theorem Planned.rewritten_run {name : String} (listed : name ∈ names) {u : TableDef}
    (there : tableGet toSchema name = some u) :
    run stepTable (actionsAt actionTable name (rewritten toSchema names actions))
      (tableGet fromSchema name) = some (some { normalized u with description := none }) := by
  obtain ⟨t, u', here, there'⟩ := kept name listed
  rw [rewritten_at_own distinct nodup listed there, run_append, here,
    planned.outside_run listed here there (List.append_nil _).symm]
  have dropped : ∀ r : TableDef, stepTable (.deleteTable name) (some r) = some none := fun _ => rfl
  simp only [Option.bind_some, run_cons, run_nil, dropped,
    step_create_new (table_get_regular planned.to_regular there).1]

omit nodup in
theorem Planned.rewritten_local : ∀ a ∈ rewritten toSchema names actions, isLocal a = true := by
  intro a mem
  rcases List.mem_append.mp mem with own | anew
  · exact planned.actions_local a (List.mem_of_mem_filter own)
  · obtain ⟨name, listed, here⟩ := List.mem_flatMap.mp anew
    obtain ⟨t, u, _, there⟩ := kept name listed
    rw [recreation_of distinct there] at here
    rcases List.mem_cons.mp here with rfl | rest
    · rfl
    · rw [List.mem_singleton.mp rest]
      rfl

theorem Planned.rewritten_left (from_nodup : TableNamesNodup fromSchema) {s' : List TableDef}
    (applied : applyActions fromSchema actions = .ok s') :
    ∃ r, applyActions fromSchema (rewritten toSchema names actions) = .ok r ∧
      TableNamesNodup r ∧
      (∀ name ∉ names, tableGet r name = tableGet s' name) ∧
      ∀ name ∈ names, ∀ u, tableGet toSchema name = some u →
        tableGet r name = some { normalized u with description := none } := by
  have are_local := planned.rewritten_local distinct kept
  have plain : ∀ name, run stepTable (actionsAt actionTable name actions)
      (tableAt fromSchema name) = some (tableAt s' name) :=
    replay_table from_nodup planned.actions_local applied
  obtain ⟨r, ran⟩ : ∃ r, applyActions fromSchema (rewritten toSchema names actions) = .ok r := by
    rw [replay_ok_iff from_nodup are_local]
    intro name
    by_cases listed : name ∈ names
    · obtain ⟨_, u, _, there⟩ := kept name listed
      rw [table_at_get from_nodup]
      exact ⟨_, planned.rewritten_run distinct nodup kept listed there⟩
    · rw [rewritten_at_other listed]
      exact ⟨_, plain name⟩
  have r_nodup := replay_nodup from_nodup are_local ran
  have s_nodup := replay_nodup from_nodup planned.actions_local applied
  have at_r := replay_table from_nodup are_local ran
  refine ⟨r, ran, r_nodup, ?_, ?_⟩
  · intro name other
    have left := at_r name
    rw [rewritten_at_other other, plain name] at left
    rw [← table_at_get r_nodup, ← table_at_get s_nodup]
    exact (Option.some.inj left).symm
  · intro name listed u there
    have left := at_r name
    rw [table_at_get from_nodup, planned.rewritten_run distinct nodup kept listed there] at left
    rw [← table_at_get r_nodup]
    exact (Option.some.inj left).symm

theorem Planned.rewritten_reaches (from_nodup : TableNamesNodup fromSchema) {s' : List TableDef}
    (applied : applyActions fromSchema actions = .ok s') {again : MigrationPlan}
    (diffed : diffSchemas s' toSchema = .ok again) (nothing : again.actions = []) :
    ∃ r final, applyActions fromSchema (rewritten toSchema names actions) = .ok r ∧
      diffSchemas r toSchema = .ok final ∧ final.actions = [] := by
  obtain ⟨r, ran, r_nodup, others, anew⟩ :=
    planned.rewritten_left distinct nodup kept from_nodup applied
  have s_same := planned.left_same_tables from_nodup applied
  have s_regular := planned.left_tables_regular from_nodup applied
  have r_same : SameTables r toSchema := by
    intro name
    by_cases listed : name ∈ names
    · obtain ⟨_, u, _, there⟩ := kept name listed
      rw [anew name listed u there, there]
      simp
    · rw [others name listed]
      exact s_same name
  have r_regular : ∀ t ∈ r, Regular t := by
    intro t mem
    have found := KeyedView.get_of_nodup r_nodup mem
    by_cases listed : t.name ∈ names
    · obtain ⟨_, u, _, there⟩ := kept t.name listed
      obtain ⟨regular, _⟩ := table_get_regular planned.to_regular there
      obtain rfl := Option.some.inj (found.symm.trans (anew t.name listed u there))
      exact ⟨regular.nodup, regular.inlines⟩
    · have same := (others t.name listed).symm.trans found
      exact s_regular t (KeyedView.get_some same).1
  have with_target : ∀ s : List TableDef, (∀ t ∈ s, Regular t) → ∀ t ∈ s ++ toSchema, Regular t :=
    fun s regular => List.forall_mem_append.mpr ⟨regular, planned.to_regular⟩
  have s_settled := (empty_diff_iff (with_target s' s_regular) s_same).mp ⟨again, diffed, nothing⟩
  obtain ⟨final, diffed', nothing'⟩ := (empty_diff_iff (with_target r r_regular) r_same).mpr (by
    intro name t u found there
    by_cases listed : name ∈ names
    · obtain rfl := Option.some.inj (found.symm.trans (anew name listed u there))
      exact created_actions_nil (table_get_regular planned.to_regular there).1 rfl
        (promoted_twice rfl rfl)
    · rw [others name listed] at found
      exact s_settled name t u found there)
  exact ⟨r, final, ran, diffed', nothing'⟩

end Planned

/-! The tables that a plan asks to have created anew -/

theorem Planned.edited_kept {fromSchema toSchema created : List TableDef}
    {edits : String → List MigrationAction} {actions : List MigrationAction}
    (planned : Planned fromSchema toSchema created edits actions) {a : MigrationAction}
    (mem : a ∈ actions) (edit : isEdit a = true) :
    ∃ t u, tableGet fromSchema (actionTable a) = some t ∧
      tableGet toSchema (actionTable a) = some u := by
  have own : a ∈ actionsAt actionTable (actionTable a) actions :=
    List.mem_filter.mpr ⟨mem, by simp⟩
  rw [planned.actions_at, tablePlan] at own
  split at own
  · cases own
  · rw [List.mem_singleton.mp own] at edit
    cases edit
  · rw [List.mem_singleton.mp own] at edit
    cases edit
  · rename_i t u here there
    exact ⟨t, u, here, there⟩

theorem required_by_edit {plan : MigrationPlan} {models : List TableDef}
    {r : RecreateTableRequired} (mem : r ∈ findNonNullableFkAddColumns plan models) :
    ∃ a ∈ plan.actions, isEdit a = true ∧ actionTable a = r.table := by
  rcases List.mem_append.mp mem with adds | keys
  · obtain ⟨a, listed, here⟩ := List.mem_flatMap.mp adds
    unfold addsColumnWithFk at here
    split at here
    · split at here
      · rw [List.mem_singleton.mp here]
        exact ⟨_, listed, rfl, rfl⟩
      · cases here
    · cases here
  · obtain ⟨a, listed, here⟩ := List.mem_flatMap.mp keys
    unfold addsFkToExistingColumn at here
    split at here
    · obtain ⟨col, _, required⟩ := List.mem_flatMap.mp here
      split at required
      · cases required
      · split at required
        · split at required
          · rw [List.mem_singleton.mp required]
            exact ⟨_, listed, rfl, rfl⟩
          · cases required
        · cases required
    · cases here

theorem recreated_kept {fromSchema toSchema created : List TableDef}
    {edits : String → List MigrationAction} {plan : MigrationPlan}
    (planned : Planned fromSchema toSchema created edits plan.actions) (models : List TableDef) :
    KeptTables fromSchema toSchema (tablesToRecreate (findNonNullableFkAddColumns plan models)) := by
  intro name listed
  simp only [tablesToRecreate, List.mem_insertionSort, List.mem_dedup, List.mem_map] at listed
  obtain ⟨r, required, rfl⟩ := listed
  obtain ⟨a, mem, edit, own⟩ := required_by_edit required
  exact own ▸ planned.edited_kept mem edit

theorem tables_to_recreate_nodup (required : List RecreateTableRequired) :
    (tablesToRecreate required).Nodup :=
  (List.perm_insertionSort _ _).nodup_iff.mpr (List.nodup_dedup _)

/-- A plan that reaches its target still does when it is rewritten for recreation. -/
theorem recreation_reaches {plans : List MigrationPlan} {baseline target s' : List TableDef}
    {plan again : MigrationPlan} (replayed : schemaFromPlans plans = .ok baseline)
    (distinct : TableNamesNodup target) (diffed : diffSchemas baseline target = .ok plan)
    (applied : applyActions baseline plan.actions = .ok s')
    (reached : diffSchemas s' target = .ok again) (nothing : again.actions = []) :
    ∃ r final, applyActions baseline (rewritePlanForRecreation plan
        (findNonNullableFkAddColumns plan target) target).actions = .ok r ∧
      diffSchemas r target = .ok final ∧ final.actions = [] := by
  obtain ⟨created, edits, planned⟩ := diff_schemas_planned diffed
  exact planned.rewritten_reaches distinct (tables_to_recreate_nodup _)
    (recreated_kept planned target) (schema_from_plans_nodup replayed) applied reached nothing

set_option maxRecDepth 100000 in
theorem family_history : schemaFromPlans [creationPlan [parentTable ["id"], orphanTable]] =
    .ok [parentTable ["id"], orphanTable] := by
  decide

set_option maxRecDepth 100000 in
theorem adopted_plan : diffSchemas [parentTable ["id"], orphanTable]
    [parentTable ["id"], childTable "id"] =
      .ok ⟨"", none, none, 0, [.addConstraint "child" (toParent "id")]⟩ := by
  decide

set_option maxRecDepth 100000 in
theorem adopted_recreated : ∃ r final, applyActions [parentTable ["id"], orphanTable]
      (rewritePlanForRecreation ⟨"", none, none, 0, [.addConstraint "child" (toParent "id")]⟩
        (findNonNullableFkAddColumns ⟨"", none, none, 0, [.addConstraint "child" (toParent "id")]⟩
          [parentTable ["id"], childTable "id"]) [parentTable ["id"], childTable "id"]).actions =
        .ok r ∧
    diffSchemas r [parentTable ["id"], childTable "id"] = .ok final ∧ final.actions = [] := by
  have applied : applyActions [parentTable ["id"], orphanTable]
      [.addConstraint "child" (toParent "id")] = .ok [parentTable ["id"], childTable "id"] := by
    decide
  have reached : diffSchemas [parentTable ["id"], childTable "id"]
      [parentTable ["id"], childTable "id"] = .ok ⟨"", none, none, 0, []⟩ := by
    decide
  exact recreation_reaches family_history (by decide) adopted_plan applied reached rfl

/-- The table is created as it is declared first, and compared as it is declared last. -/
def childTwice : List TableDef := [parentTable ["id"], orphanTable, childTable "id"]

set_option maxRecDepth 100000 in
theorem first_declaration_recreated :
    let plan : MigrationPlan := ⟨"", none, none, 0, [.addConstraint "child" (toParent "id")]⟩
    diffSchemas [parentTable ["id"], orphanTable] childTwice = .ok plan ∧
    applyActions [parentTable ["id"], orphanTable] plan.actions =
      .ok [parentTable ["id"], childTable "id"] ∧
    diffSchemas [parentTable ["id"], childTable "id"] childTwice = .ok { plan with actions := [] } ∧
    applyActions [parentTable ["id"], orphanTable] (rewritePlanForRecreation plan
        (findNonNullableFkAddColumns plan childTwice) childTwice).actions =
      .ok [parentTable ["id"], orphanTable] ∧
    diffSchemas [parentTable ["id"], orphanTable] childTwice = .ok plan := by
  decide

end Vespertide
