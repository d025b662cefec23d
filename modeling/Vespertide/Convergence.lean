import Vespertide.TableConvergence

/-!
A second difference after the replay of a computed plan. It always succeeds,
and it is empty exactly when every table that stays converges.
-/
namespace Vespertide
open Components

section Again
variable {fromSchema toSchema : List TableDef}

/-- Between schemas with the same tables nothing is created or dropped. -/
def SameTables (fromSchema toSchema : List TableDef) : Prop :=
  ∀ name, tableGet fromSchema name = none ↔ tableGet toSchema name = none

theorem same_tables_diff (regular : ∀ t ∈ fromSchema ++ toSchema, Regular t)
    (same : SameTables fromSchema toSchema) :
    ∃ plan, diffSchemas fromSchema toSchema = .ok plan := by
  have valid : validateColumnNames (fromSchema ++ toSchema) = .ok () :=
    (validate_columns_iff _).mpr fun t mem => (regular t mem).nodup
  have from_normal := normalize_schema_regular fun t mem =>
    regular t (List.mem_append_left toSchema mem)
  have to_normal := normalize_schema_regular fun t mem =>
    regular t (List.mem_append_right fromSchema mem)
  have none_new : (KeyedView.entries TableDef.name (toSchema.map normalized)).filter
      (fun tbl => (tableGet (fromSchema.map normalized) tbl.name).isNone) = [] := by
    rw [List.filter_eq_nil_iff]
    intro tbl mem
    rw [KeyedView.mem_entries] at mem
    rw [table_get_normalized, Option.isNone_map, Option.isNone_iff_eq_none, same,
      ← Option.map_eq_none_iff (f := normalized), ← table_get_normalized]
    simp [tableGet, mem]
  have no_creation : diffCreatedTables (fromSchema.map normalized) (toSchema.map normalized)
      toSchema = .ok [] := by
    simp only [diffCreatedTables, none_new]
    rfl
  simp only [diffSchemas, diffSchemasWith, valid, from_normal, to_normal, no_creation, bind,
    Except.bind, pure, Except.pure]
  exact ⟨_, rfl⟩

variable {created : List TableDef} {edits : String → List MigrationAction}
  {actions : List MigrationAction} (planned : Planned fromSchema toSchema created edits actions)
include planned

theorem Planned.actions_nil_iff (same : SameTables fromSchema toSchema) :
    actions = [] ↔ ∀ name t u, tableGet fromSchema name = some t → tableGet toSchema name = some u →
      tableActions name t (normalized u) (attributeEdits name t.columns u.columns)
        (additions name t (normalized u)) = [] := by
  have by_table : actions = [] ↔ ∀ name, actionsAt actionTable name actions = [] := by
    constructor
    · rintro rfl name
      rfl
    · intro none_left
      rw [List.eq_nil_iff_forall_not_mem]
      intro a mem
      have here : a ∈ actionsAt actionTable (actionTable a) actions :=
        List.mem_filter.mpr ⟨mem, by simp⟩
      rw [none_left] at here
      exact List.not_mem_nil here
  rw [by_table]
  refine forall_congr' fun name => ?_
  rw [planned.actions_at, tablePlan]
  have together := same name
  cases here : tableGet fromSchema name with
  | none => simp [together.mp here]
  | some t =>
    cases there : tableGet toSchema name with
    | none => simp [together.mpr there] at here
    | some u =>
      have perm := planned.edits_perm name t u here there
      have edits_nil : edits name = [] ↔ attributeEdits name t.columns u.columns = [] := by
        rw [← List.length_eq_zero_iff, perm.length_eq, List.length_eq_zero_iff]
      have additions_nil : orderedAdditions (created.map (·.name)) name t (normalized u) = [] ↔
          additions name t (normalized u) = [] := by
        simp only [List.eq_nil_iff_forall_not_mem, mem_ordered_additions]
      simp only [table_actions_nil_iff, edits_nil, additions_nil, Option.some.injEq, forall_eq',
        forall_apply_eq_imp_iff]

omit planned in
theorem empty_diff_iff (regular : ∀ t ∈ fromSchema ++ toSchema, Regular t)
    (same : SameTables fromSchema toSchema) :
    (∃ plan, diffSchemas fromSchema toSchema = .ok plan ∧ plan.actions = []) ↔
      ∀ name t u, tableGet fromSchema name = some t → tableGet toSchema name = some u →
        tableActions name t (normalized u) (attributeEdits name t.columns u.columns)
          (additions name t (normalized u)) = [] := by
  obtain ⟨plan, diffed⟩ := same_tables_diff regular same
  obtain ⟨_, _, replanned⟩ := diff_schemas_planned diffed
  rw [← replanned.actions_nil_iff same, diffed]
  simp

end Again

/-! What a plan leaves of each table -/

section Left
variable {fromSchema toSchema created : List TableDef} {edits : String → List MigrationAction}
  {actions : List MigrationAction} (planned : Planned fromSchema toSchema created edits actions)
  (nodup : TableNamesNodup fromSchema) {s' : List TableDef}
  (applied : applyActions fromSchema actions = .ok s')
include planned nodup applied

theorem Planned.left_plan (name : String) :
    run stepTable (tablePlan fromSchema toSchema (created.map (·.name)) edits name)
      (tableGet fromSchema name) = some (tableGet s' name) := by
  have left := replay_table nodup planned.actions_local applied name
  rwa [planned.actions_at, table_at_get nodup,
    table_at_get (replay_nodup nodup planned.actions_local applied)] at left

theorem Planned.left_absent {name : String} (absent : tableGet toSchema name = none) :
    tableGet s' name = none := by
  have left := planned.left_plan nodup applied name
  unfold tablePlan at left
  cases here : tableGet fromSchema name with
  | none =>
    rw [here, absent] at left
    exact (Option.some.inj left).symm
  | some t =>
    rw [here, absent] at left
    exact (Option.some.inj left).symm

theorem Planned.left_created {name : String} {u : TableDef}
    (absent : tableGet fromSchema name = none) (there : tableGet toSchema name = some u) :
    tableGet s' name = some { normalized u with description := none } := by
  have left := planned.left_plan nodup applied name
  rw [tablePlan, absent, there] at left
  simp only [run_cons, run_nil, step_create_new (table_get_regular planned.to_regular there).1,
    Option.bind_some, Option.some.injEq] at left
  exact left.symm

theorem Planned.left_kept {name : String} {t u : TableDef} (here : tableGet fromSchema name = some t)
    (there : tableGet toSchema name = some u) : ∃ r, tableGet s' name = some r ∧
      TableLeft t.name t (normalized u)
        (orderedAdditions (created.map (·.name)) t.name t (normalized u)) r := by
  have left := planned.left_plan nodup applied name
  obtain ⟨regular, rfl⟩ := table_get_regular planned.from_regular here
  rw [tablePlan, here, there] at left
  simp only at left
  rw [planned.block_replays here there] at left
  obtain ⟨r, ran, same⟩ := Option.map_eq_some_iff.mp left
  exact ⟨r, same.symm, run_table_actions (u := normalized u) regular
    (planned.edits_perm t.name t u here there) ran⟩

theorem Planned.left_same_tables : SameTables s' toSchema := by
  intro name
  constructor
  · intro absent
    by_contra present
    obtain ⟨u, there⟩ := Option.ne_none_iff_exists'.mp present
    rcases Option.eq_none_or_eq_some (tableGet fromSchema name) with none_here | ⟨t, here⟩
    · rw [planned.left_created nodup applied none_here there] at absent
      cases absent
    · obtain ⟨r, found, _⟩ := planned.left_kept nodup applied here there
      rw [found] at absent
      cases absent
  · exact planned.left_absent nodup applied

theorem Planned.left_tables_regular : ∀ r ∈ s', Regular r := by
  intro r mem
  have found : tableGet s' r.name = some r :=
    KeyedView.get_of_nodup (replay_nodup nodup planned.actions_local applied) mem
  rcases Option.eq_none_or_eq_some (tableGet toSchema r.name) with none_there | ⟨u, there⟩
  · rw [planned.left_absent nodup applied none_there] at found
    cases found
  rcases Option.eq_none_or_eq_some (tableGet fromSchema r.name) with none_here | ⟨t, here⟩
  · rw [planned.left_created nodup applied none_here there] at found
    obtain ⟨regular, _⟩ := table_get_regular planned.to_regular there
    exact Option.some.inj found ▸ ⟨regular.nodup, regular.inlines⟩
  · obtain ⟨r', found', left⟩ := planned.left_kept nodup applied here there
    obtain rfl := Option.some.inj (found.symm.trans found')
    exact left_regular left (table_get_regular planned.from_regular here).1

theorem Planned.second_diff : (∃ again, diffSchemas s' toSchema = .ok again ∧ again.actions = []) ↔
    ∀ t ∈ fromSchema, ∀ u, tableGet toSchema t.name = some u → Converges t (normalized u) := by
  have same := planned.left_same_tables nodup applied
  have regular : ∀ t ∈ s' ++ toSchema, Regular t := by
    intro t mem
    rcases List.mem_append.mp mem with left | wanted
    · exact planned.left_tables_regular nodup applied t left
    · exact planned.to_regular t wanted
  rw [empty_diff_iff regular same]
  have replaceable := (planned.replays_iff nodup).mp ⟨s', applied⟩
  constructor
  · intro none_left t mem u there
    have here : tableGet fromSchema t.name = some t := KeyedView.get_of_nodup nodup mem
    obtain ⟨r, found, left⟩ := planned.left_kept nodup applied here there
    exact (second_actions_nil_iff left (planned.from_regular t mem)
      (table_get_regular planned.to_regular there).1.nodup (fun c => mem_ordered_additions)
      (replaceable t mem u there)).mp (none_left t.name r u found there)
  · intro converges name r u found there
    rcases Option.eq_none_or_eq_some (tableGet fromSchema name) with none_here | ⟨t, here⟩
    · rw [planned.left_created nodup applied none_here there] at found
      obtain rfl := Option.some.inj found
      exact created_actions_nil (table_get_regular planned.to_regular there).1 rfl
        (promoted_twice rfl rfl)
    · obtain ⟨mem, rfl⟩ := KeyedView.get_some here
      obtain ⟨r', found', left⟩ := planned.left_kept nodup applied here there
      obtain rfl := Option.some.inj (found.symm.trans found')
      exact (second_actions_nil_iff left (planned.from_regular t mem)
        (table_get_regular planned.to_regular there).1.nodup (fun c => mem_ordered_additions)
        (replaceable t mem u there)).mpr (converges t mem u there)

end Left

/-- After a computed plan has been replayed, the next difference succeeds, and it is
    empty exactly when every table that stays converges. -/
theorem replan_empty_iff {plans : List MigrationPlan} {baseline target s' : List TableDef}
    {plan : MigrationPlan} (replayed : schemaFromPlans plans = .ok baseline)
    (diffed : diffSchemas baseline target = .ok plan)
    (applied : applyActions baseline plan.actions = .ok s') :
    (∃ again, diffSchemas s' target = .ok again ∧ again.actions = []) ↔
      ∀ t ∈ baseline, ∀ u, tableGet target t.name = some u → Converges t (normalized u) := by
  obtain ⟨created, edits, planned⟩ := diff_schemas_planned diffed
  exact planned.second_diff (schema_from_plans_nodup replayed) applied

def seatTable (columns : List String) (constraints : List TableConstraint) : TableDef :=
  ⟨"seat", none, columns.map (.new · (.simple .integer) false), constraints⟩

def uniqueOn (columns : List String) : TableConstraint := .unique none columns .default

set_option maxRecDepth 100000 in
theorem seat_history : schemaFromPlans [creationPlan [seatTable ["row", "place"]
    [uniqueOn ["row", "place"]]]] = .ok [seatTable ["row", "place"] [uniqueOn ["row", "place"]]] := by
  decide

set_option maxRecDepth 100000 in
theorem seat_plan : diffSchemas [seatTable ["row", "place"] [uniqueOn ["row", "place"]]]
    [seatTable ["row"] []] = .ok ⟨"", none, none, 0, [.deleteColumn "seat" "place",
      .removeConstraint "seat" (uniqueOn ["row", "place"])]⟩ := by
  decide

set_option maxRecDepth 100000 in
theorem seat_replayed : applyActions [seatTable ["row", "place"] [uniqueOn ["row", "place"]]]
    [.deleteColumn "seat" "place", .removeConstraint "seat" (uniqueOn ["row", "place"])] =
      .ok [seatTable ["row"] [uniqueOn ["row"]]] := by
  decide

set_option maxRecDepth 100000 in
theorem seat_again : diffSchemas [seatTable ["row"] [uniqueOn ["row"]]] [seatTable ["row"] []] =
    .ok ⟨"", none, none, 0, [.removeConstraint "seat" (uniqueOn ["row"])]⟩ := by
  decide

theorem seat_replan_iff : (∃ again,
      diffSchemas [seatTable ["row"] [uniqueOn ["row"]]] [seatTable ["row"] []] = .ok again ∧
        again.actions = []) ↔
    ∀ t ∈ [seatTable ["row", "place"] [uniqueOn ["row", "place"]]],
      ∀ u, tableGet [seatTable ["row"] []] t.name = some u → Converges t (normalized u) :=
  replan_empty_iff seat_history seat_plan seat_replayed

/-- The shrunk constraint is left over: the removal names it by its old columns. -/
theorem shrunk_unique_left_over :
    ¬ ∀ plans baseline target plan s', schemaFromPlans plans = .ok baseline →
      diffSchemas baseline target = .ok plan → applyActions baseline plan.actions = .ok s' →
      ∃ again, diffSchemas s' target = .ok again ∧ again.actions = [] := by
  intro converges
  obtain ⟨again, diffed, empty⟩ := converges _ _ _ _ _ seat_history seat_plan seat_replayed
  obtain rfl := Except.ok.inj (seat_again.symm.trans diffed)
  cases empty

end Vespertide
