import Vespertide.PlanReplay
import Vespertide.Support.Positions

/-!
The steps of a computed plan, one by one: where in the plan a step stands, and
which of the tables have had their actions by then.
-/
namespace Vespertide
open Components Positions

variable {fromSchema toSchema created : List TableDef} {edits : String → List MigrationAction}
  {actions : List MigrationAction}

abbrev creations (created : List TableDef) : List MigrationAction := created.map createOf

abbrev drops (fromSchema toSchema : List TableDef) : List MigrationAction :=
  (dropOrder (droppedNames fromSchema toSchema) (fromSchema.map normalized)).map .deleteTable

inductive PlanStep (fromSchema toSchema created : List TableDef)
    (edits : String → List MigrationAction) : List MigrationAction → MigrationAction → Prop
  | creation {done todo : List TableDef} {u : TableDef} (listed : created = done ++ u :: todo) :
      PlanStep fromSchema toSchema created edits (creations done) (createOf u)
  | drop {done todo : List String} {name : String}
      (listed : dropOrder (droppedNames fromSchema toSchema) (fromSchema.map normalized) =
        done ++ name :: todo) :
      PlanStep fromSchema toSchema created edits
        (creations created ++ done.map .deleteTable) (.deleteTable name)
  | early {done todo : List String} {name : String} {front rest : List MigrationAction}
      {a : MigrationAction} (listed : tableKeys toSchema = done ++ name :: todo)
      (block : earlyBlock fromSchema toSchema (created.map (·.name)) edits name =
        front ++ a :: rest) :
      PlanStep fromSchema toSchema created edits (creations created ++ drops fromSchema toSchema ++
        done.flatMap (earlyBlock fromSchema toSchema (created.map (·.name)) edits) ++ front) a
  | late {done todo : List String} {name : String} {front rest : List MigrationAction}
      {a : MigrationAction} (listed : tableKeys toSchema = done ++ name :: todo)
      (block : lateBlock fromSchema toSchema (created.map (·.name)) name = front ++ a :: rest) :
      PlanStep fromSchema toSchema created edits (creations created ++ drops fromSchema toSchema ++
        (tableKeys toSchema).flatMap
          (earlyBlock fromSchema toSchema (created.map (·.name)) edits) ++
        (done.flatMap (lateBlock fromSchema toSchema (created.map (·.name))) ++ front)) a

section Planned
variable (planned : Planned fromSchema toSchema created edits actions)
  {before after : List MigrationAction} {a b : MigrationAction}
  (split : actions = before ++ a :: after)
include planned split

theorem Planned.step : PlanStep fromSchema toSchema created edits before a := by
  rw [planned.actions_eq] at split
  rcases split_append split with ⟨rest, front_split⟩ | ⟨front, rfl, late_split⟩
  · rcases split_append front_split with ⟨rest, drop_split⟩ | ⟨front, rfl, early_split⟩
    · rcases split_append drop_split with ⟨rest, create_split⟩ | ⟨front, rfl, own_split⟩
      · obtain ⟨done, u, todo, listed, rfl, rfl⟩ := split_map create_split
        exact .creation listed
      · obtain ⟨done, name, todo, listed, rfl, rfl⟩ := split_map own_split
        exact .drop listed
    · obtain ⟨done, name, todo, front', rest, listed, block, rfl⟩ := split_flatMap early_split
      rw [← List.append_assoc]
      exact .early listed block
  · obtain ⟨done, name, todo, front', rest, listed, block, rfl⟩ := split_flatMap late_split
    exact .late listed block

theorem Planned.actions_at_prefix (name : String) :
    tablePlan fromSchema toSchema (created.map (·.name)) edits name =
      actionsAt actionTable name before ++ actionsAt actionTable name (a :: after) := by
  rw [← planned.actions_at, split, actions_at_append]

/-- A table with a single action has had it, or not. -/
theorem Planned.sole_action {name : String}
    (sole : tablePlan fromSchema toSchema (created.map (·.name)) edits name = [b])
    (done : b ∈ before) (own : actionTable b = name) : actionsAt actionTable name before = [b] := by
  have parts := planned.actions_at_prefix split name
  have here : b ∈ actionsAt actionTable name before := List.mem_filter.mpr ⟨done, by simp [own]⟩
  rw [sole] at parts
  cases shape : actionsAt actionTable name before with
  | nil =>
    rw [shape] at here
    cases here
  | cons b' rest =>
    rw [shape] at parts
    obtain ⟨rfl, tail⟩ := List.cons.inj parts
    rw [(List.append_eq_nil_iff.mp tail.symm).1]

theorem Planned.prefix_local : ∀ b ∈ before, isLocal b = true := by
  intro b mem
  exact planned.actions_local b (split ▸ List.mem_append_left _ mem)

variable (nodup : TableNamesNodup fromSchema) {schema : List TableDef}
  (applied : applyActions fromSchema before = .ok schema)
include nodup applied

theorem Planned.prefix_table (name : String) :
    run stepTable (actionsAt actionTable name before) (tableGet fromSchema name) =
      some (tableGet schema name) := by
  have left := replay_table nodup (planned.prefix_local split) applied name
  rwa [table_at_get nodup,
    table_at_get (replay_nodup nodup (planned.prefix_local split) applied)] at left

theorem Planned.created_by_then {u : TableDef} (mem : u ∈ created) (done : createOf u ∈ before) :
    tableGet schema u.name = some { normalized u with description := none } := by
  obtain ⟨there, absent⟩ := (planned.mem_created u).mp mem
  have sole : tablePlan fromSchema toSchema (created.map (·.name)) edits u.name = [createOf u] := by
    rw [tablePlan, absent, there]
  have left := planned.prefix_table split nodup applied u.name
  rw [planned.sole_action split sole done rfl, absent] at left
  simp only [run_cons, run_nil, step_create_new (table_get_regular planned.to_regular there).1,
    Option.bind_some, Option.some.injEq] at left
  exact left.symm

theorem Planned.unplanned {name : String}
    (none_at_all : tablePlan fromSchema toSchema (created.map (·.name)) edits name = []) :
    tableGet schema name = tableGet fromSchema name := by
  have parts := planned.actions_at_prefix split name
  rw [none_at_all] at parts
  have left := planned.prefix_table split nodup applied name
  rw [(List.append_eq_nil_iff.mp parts.symm).1] at left
  exact (Option.some.inj left).symm

theorem Planned.untouched {name : String} (none_yet : ∀ b ∈ before, actionTable b ≠ name) :
    tableGet schema name = tableGet fromSchema name := by
  have left := planned.prefix_table split nodup applied name
  rw [actions_at_other none_yet] at left
  exact (Option.some.inj left).symm

theorem Planned.dropped_by_then {name : String} (dropped : name ∈ droppedNames fromSchema toSchema)
    (done : .deleteTable name ∈ before) : tableGet schema name = none := by
  obtain ⟨present, absent⟩ := mem_dropped_names.mp dropped
  obtain ⟨t, here⟩ := Option.ne_none_iff_exists'.mp present
  have sole : tablePlan fromSchema toSchema (created.map (·.name)) edits name =
      [.deleteTable name] := by
    rw [tablePlan, here, absent]
  have left := planned.prefix_table split nodup applied name
  rw [planned.sole_action split sole done rfl, here] at left
  exact (Option.some.inj left).symm

end Planned

/-! A step in the block of one table -/

section Early
variable (planned : Planned fromSchema toSchema created edits actions)
include planned

theorem Planned.kept_actions {name : String} {t u : TableDef}
    (here : tableGet fromSchema name = some t) (there : tableGet toSchema name = some u)
    (later : List MigrationAction) :
    actionsAt actionTable name (creations created ++ drops fromSchema toSchema ++ later) =
      actionsAt actionTable name later := by
  have kept : name ∉ droppedNames fromSchema toSchema := by simp [mem_dropped_names, there]
  rw [actions_at_append, actions_at_append, planned.created_at_other (by simp [here]), drops_at,
    if_neg kept, List.nil_append, List.nil_append]

variable {done todo : List String} {name : String} {front rest : List MigrationAction}
  {a : MigrationAction} (listed : tableKeys toSchema = done ++ name :: todo)
  (block : earlyBlock fromSchema toSchema (created.map (·.name)) edits name = front ++ a :: rest)
include listed block

omit planned block in
theorem listed_order : (∀ m ∈ done, m < name) ∧ ∀ m ∈ todo, name < m := by
  have sorted := KeyedView.keys_sorted TableDef.name toSchema
  have order : (done ++ name :: todo).Pairwise (· < ·) := listed ▸ sorted
  obtain ⟨_, tail, across⟩ := List.pairwise_append.mp order
  exact ⟨fun m mem => across m mem name List.mem_cons_self, (List.pairwise_cons.mp tail).1⟩

omit listed in
theorem Planned.front_table : ∀ b ∈ front, actionTable b = name := by
  intro b mem
  exact (planned.block_edit (block ▸ List.mem_append_left _ mem)).1

theorem Planned.early_actions {m : String} : actionsAt actionTable m
      (done.flatMap (earlyBlock fromSchema toSchema (created.map (·.name)) edits) ++ front) =
    if m ∈ done then earlyBlock fromSchema toSchema (created.map (·.name)) edits m
    else if m = name then front else [] := by
  have own : ∀ n ∈ done, ∀ a ∈ earlyBlock fromSchema toSchema (created.map (·.name)) edits n,
      actionTable a = id n := fun n _ a mem => (planned.block_edit mem).1
  have fronts := planned.front_table block
  have nodup : (done ++ name :: todo).Nodup := listed ▸ KeyedView.keys_nodup _ _
  rw [actions_at_append]
  split
  · rename_i earlier
    have other : ∀ b ∈ front, actionTable b ≠ m := by
      intro b mem same
      rw [fronts b mem] at same
      exact (List.nodup_append.mp nodup).2.2 m earlier name List.mem_cons_self same.symm
    have done_nodup : (done.map id).Nodup := by
      rw [List.map_id]
      exact (List.nodup_append.mp nodup).1
    rw [actions_at_other other, List.append_nil]
    exact actions_at_block own done_nodup earlier
  · rename_i not_earlier
    rw [actions_at_absent_block own (by rwa [List.map_id]), List.nil_append]
    split
    · rename_i here
      exact actions_at_own (here ▸ fronts)
    · rename_i other
      apply actions_at_other
      intro b mem same
      rw [fronts b mem] at same
      exact other same.symm

variable {before after : List MigrationAction}
  (shape : before = creations created ++ drops fromSchema toSchema ++
    (done.flatMap (earlyBlock fromSchema toSchema (created.map (·.name)) edits) ++ front))
  (split : actions = before ++ a :: after) (nodup : TableNamesNodup fromSchema)
  {schema : List TableDef} (applied : applyActions fromSchema before = .ok schema)
include shape split nodup applied

/-- The tables before the one at work have their target columns. -/
theorem Planned.earlier_table {m : String} {t u : TableDef} (earlier : m < name)
    (here : tableGet fromSchema m = some t) (there : tableGet toSchema m = some u) :
    ∃ r, tableGet schema m = some r ∧ Replaceable t (normalized u) ∧
      TableLeft t.name t (normalized u) ((additions t.name t (normalized u)).filter
        (! needsCreated (created.map (·.name)) ·)) r := by
  obtain ⟨_, later⟩ := listed_order listed
  have member : m ∈ done := by
    have known : m ∈ done ++ name :: todo := listed ▸ mem_table_keys.mpr (by rw [there]; rfl)
    rcases List.mem_append.mp known with mem | mem
    · exact mem
    · rcases List.mem_cons.mp mem with rfl | after
      · exact absurd earlier (lt_irrefl m)
      · exact absurd earlier (later m after).asymm
  have left := planned.prefix_table split nodup applied m
  obtain ⟨regular, rfl⟩ := table_get_regular planned.from_regular here
  rw [shape, planned.kept_actions here there, planned.early_actions listed block, if_pos member,
    earlyBlock, here, there] at left
  simp only at left
  rw [planned.block_replays here there] at left
  obtain ⟨r, ran, same⟩ := Option.map_eq_some_iff.mp left
  have perm := planned.edits_perm t.name t u here there
  exact ⟨r, same.symm, (run_table_actions_iff (u := normalized u) regular perm _).mp ⟨r, ran⟩,
    run_table_actions (u := normalized u) regular perm ran⟩

theorem Planned.later_table {m : String} {t u : TableDef} (later : name < m)
    (here : tableGet fromSchema m = some t) (there : tableGet toSchema m = some u) :
    tableGet schema m = some t := by
  obtain ⟨earlier, _⟩ := listed_order listed
  have fresh : m ∉ done := fun mem => absurd later (earlier m mem).asymm
  have left := planned.prefix_table split nodup applied m
  rw [shape, planned.kept_actions here there, planned.early_actions listed block, if_neg fresh,
    if_neg (ne_of_gt later), here] at left
  exact (Option.some.inj left).symm

/-- The table at work has had the front of its block. -/
theorem Planned.own_table {t : TableDef} (here : tableGet fromSchema name = some t) :
    ∃ r, tableGet schema name = some r ∧ run editStep front t = some r := by
  have not_earlier : name ∉ done := fun mem => lt_irrefl name ((listed_order listed).1 name mem)
  have known : name ∈ tableKeys toSchema := listed ▸ by simp
  obtain ⟨u, there⟩ := Option.isSome_iff_exists.mp (mem_table_keys.mp known)
  have left := planned.prefix_table split nodup applied name
  have edits_only : ∀ b ∈ front, isEdit b = true := fun b mem =>
    (planned.block_edit (block ▸ List.mem_append_left _ mem)).2
  rw [shape, planned.kept_actions here there, planned.early_actions listed block,
    if_neg not_earlier, if_pos rfl, here, run_edits edits_only] at left
  obtain ⟨r, ran, same⟩ := Option.map_eq_some_iff.mp left
  exact ⟨r, same.symm, ran⟩

end Early

end Vespertide
