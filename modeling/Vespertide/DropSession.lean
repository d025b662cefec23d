import Mathlib.Data.List.Permutation
import Vespertide.DropRewrites
import Vespertide.PlanReplay
import Vespertide.PlanWarnings
import Vespertide.Recreation
import Vespertide.Support.Results

/-!
A session of answers to the drops of a computed plan. It goes through exactly when
no addition is chosen twice as a target, and then the rewritten plan replays to the
columns of the plan it rewrites, but for what the renames carry over.
-/
namespace Vespertide
open Footprints Components

/-! Where the pairs stand in a computed plan -/

theorem filter_single {α : Type} {p : α → Bool} {xs : List α} (nodup : xs.Nodup) {x : α}
    (mem : x ∈ xs) (only : ∀ y ∈ xs, p y = true ↔ y = x) : xs.filter p = [x] := by
  have kept : x ∈ xs.filter p := List.mem_filter.mpr ⟨mem, (only x mem).mpr rfl⟩
  refine List.perm_singleton.mp ((List.perm_ext_iff_of_nodup (nodup.filter p) (by simp)).mpr ?_)
  intro y
  rw [List.mem_singleton]
  constructor
  · intro there
    obtain ⟨listed, passes⟩ := List.mem_filter.mp there
    exact (only y listed).mp passes
  · rintro rfl
    exact kept

section Planned
variable {baseline models created : List TableDef} {edits : String → List MigrationAction}
  {actions : List MigrationAction} (planned : Planned baseline models created edits actions)
include planned

theorem Planned.mem_at {a : MigrationAction} : a ∈ actions ↔
    a ∈ tablePlan baseline models (created.map (·.name)) edits (actionTable a) := by
  rw [← planned.actions_at, actionsAt, List.mem_filter]
  simp

theorem Planned.column_dropped {table column : String} :
    .deleteColumn table column ∈ actions ↔ ∃ t u, tableGet baseline table = some t ∧
      tableGet models table = some u ∧ column ∈ droppedColumns t (normalized u) := by
  rw [planned.mem_at]
  show _ ∈ tablePlan baseline models _ edits table ↔ _
  unfold tablePlan
  cases here : tableGet baseline table with
  | none => cases there : tableGet models table <;> simp [createOf]
  | some t =>
    cases there : tableGet models table with
    | none => simp
    | some u =>
      constructor
      · intro mem
        rcases table_action_cases (u := normalized u) (planned.edits_perm table t u here there) mem
          with ⟨c, listed, same⟩ | edit | ⟨c, _, same⟩ | ⟨old, new, same, _⟩ | ⟨c, _, same⟩ |
            ⟨c, _, same⟩
        · cases same
          exact ⟨t, u, rfl, rfl, listed⟩
        · obtain ⟨_, _, _, _, change⟩ := attribute_edit_of edit
          rcases column_edit_cases change with ⟨same, _⟩ | ⟨same, _⟩ | same | same | same <;>
            cases same
        all_goals cases same
      · rintro ⟨t', u', same, same', listed⟩
        obtain rfl := Option.some.inj same
        obtain rfl := Option.some.inj same'
        simp [tableActions, columnActions, listed]

theorem Planned.column_added {table : String} {added : ColumnDef} {fillWith : Option String} :
    MigrationAction.addColumn table added fillWith ∈ actions ↔ fillWith = none ∧ ∃ t u,
      tableGet baseline table = some t ∧ tableGet models table = some u ∧
        added ∈ addedColumns t (normalized u) := by
  rw [planned.mem_at]
  show _ ∈ tablePlan baseline models _ edits table ↔ _
  unfold tablePlan
  cases here : tableGet baseline table with
  | none => cases there : tableGet models table <;> simp [createOf]
  | some t =>
    cases there : tableGet models table with
    | none => simp
    | some u =>
      constructor
      · intro mem
        rcases table_action_cases (u := normalized u) (planned.edits_perm table t u here there) mem
          with ⟨c, _, same⟩ | edit | ⟨c, listed, same⟩ | ⟨old, new, same, _⟩ | ⟨c, _, same⟩ |
            ⟨c, _, same⟩
        · cases same
        · obtain ⟨_, _, _, _, change⟩ := attribute_edit_of edit
          rcases column_edit_cases change with ⟨same, _⟩ | ⟨same, _⟩ | same | same | same <;>
            cases same
        · cases same
          exact ⟨rfl, t, u, rfl, rfl, listed⟩
        all_goals cases same
      · rintro ⟨rfl, t', u', same, same', listed⟩
        obtain rfl := Option.some.inj same
        obtain rfl := Option.some.inj same'
        simp [tableActions, columnActions, listed]

theorem Planned.table_dropped {table : String} : .deleteTable table ∈ actions ↔
    tableGet baseline table ≠ none ∧ tableGet models table = none := by
  rw [planned.mem_at]
  show _ ∈ tablePlan baseline models _ edits table ↔ _
  unfold tablePlan
  cases here : tableGet baseline table with
  | none => cases there : tableGet models table <;> simp [createOf]
  | some t =>
    cases there : tableGet models table with
    | none => simp
    | some u =>
      simp only [ne_eq, reduceCtorEq, not_false_eq_true, and_false, iff_false]
      intro mem
      have edit := (table_action_edit (u := normalized u)
        (planned.edits_perm table t u here there) mem).2
      cases edit

theorem Planned.table_created {table : String} {columns : List ColumnDef}
    {constraints : List TableConstraint} : .createTable table columns constraints ∈ actions ↔
      tableGet baseline table = none ∧ ∃ u, tableGet models table = some u ∧
        columns = u.columns ∧ constraints = u.constraints := by
  rw [planned.mem_at]
  show _ ∈ tablePlan baseline models _ edits table ↔ _
  unfold tablePlan
  cases here : tableGet baseline table with
  | none =>
    cases there : tableGet models table with
    | none => simp
    | some u =>
      obtain ⟨_, named⟩ := KeyedView.get_some there
      simp [createOf, named]
  | some t =>
    cases there : tableGet models table with
    | none => simp
    | some u =>
      simp only [reduceCtorEq, false_and, iff_false]
      intro mem
      have edit := (table_action_edit (u := normalized u)
        (planned.edits_perm table t u here there) mem).2
      cases edit

omit planned in
theorem local_named {a : MigrationAction} (is_local : isLocal a = true) :
    namedTables a = [actionTable a] := by
  cases a <;> first | rfl | simp [isLocal] at is_local

theorem Planned.filter_table {p : MigrationAction → Bool} (table : String)
    (own : ∀ a ∈ actions, p a = true → actionTable a = table) :
    actions.filter p =
      (tablePlan baseline models (created.map (·.name)) edits table).filter p := by
  rw [← planned.actions_at, actionsAt, List.filter_filter]
  refine List.filter_congr fun a mem => ?_
  cases passes : p a with
  | false => rfl
  | true => simp [own a mem passes]

theorem Planned.no_renames {table old new : String} : .renameColumn table old new ∉ actions := by
  rw [planned.mem_at]
  intro mem
  unfold tablePlan at mem
  split at mem
  · cases mem
  · simp at mem
  · simp [createOf] at mem
  · rename_i t u here there
    rcases table_action_cases (u := normalized u) (planned.edits_perm _ t u here there) mem with
      ⟨c, _, same⟩ | edit | ⟨c, _, same⟩ | ⟨was, wanted, same, _⟩ | ⟨c, _, same⟩ | ⟨c, _, same⟩
    · cases same
    · obtain ⟨_, _, _, _, change⟩ := attribute_edit_of edit
      rcases column_edit_cases change with ⟨same, _⟩ | ⟨same, _⟩ | same | same | same <;> cases same
    all_goals cases same

theorem Planned.column_pair {table old : String} {t u : TableDef} {added : ColumnDef}
    (here : tableGet baseline table = some t) (there : tableGet models table = some u)
    (dropped : old ∈ droppedColumns t (normalized u))
    (fresh : added ∈ addedColumns t (normalized u)) :
    actions.filter (Region.columns table [old, added.name]).touches =
      [.deleteColumn table old, .addColumn table added none] := by
  have u_nodup : (normalized u).columnNames.Nodup :=
    (planned.to_regular u (KeyedView.get_some there).1).nodup
  obtain ⟨old_there, old_gone⟩ := mem_dropped.mp dropped
  obtain ⟨toDef, _, new_absent, named⟩ := (mem_added u_nodup).mp fresh
  have new_name : added.name = toDef.name := by rw [named]; rfl
  rw [planned.filter_table table]
  · simp only [tablePlan, here, there, tableActions, columnActions, List.filter_append,
      List.filter_map]
    have drops : (droppedColumns t (normalized u)).filter
        ((Region.columns table [old, added.name]).touches ∘ (.deleteColumn table ·)) = [old] := by
      refine filter_single ((KeyedView.keys_nodup _ _).filter _) dropped fun c mem => ?_
      have apart : c ≠ added.name := fun same =>
        new_absent (new_name ▸ same ▸ (mem_dropped.mp mem).1)
      simp [Region.touches, namedTables, MigrationAction.tableName, isEdit, isLocal, editedColumns,
        apart]
    have added_names_nodup : ((addedColumns t (normalized u)).map (·.name)).Nodup := by
      rw [added_names]
      exact (KeyedView.keys_nodup _ _).filter _
    have additions : (addedColumns t (normalized u)).filter
        ((Region.columns table [old, added.name]).touches ∘ (.addColumn table · none)) =
          [added] := by
      refine filter_single (List.Nodup.of_map _ added_names_nodup) fresh fun c mem => ?_
      have apart : c.name ≠ old := by
        obtain ⟨d, _, absent, rfl⟩ := (mem_added u_nodup).mp mem
        exact fun same => absent (same ▸ old_there)
      have only : c.name = added.name ↔ c = added :=
        ⟨fun same => List.inj_on_of_nodup_map added_names_nodup mem fresh same,
          fun same => congrArg _ same⟩
      simp [Region.touches, namedTables, MigrationAction.tableName, isEdit, isLocal, editedColumns,
        apart, only]
    have untouched : ∀ bs : List MigrationAction,
        (∀ b ∈ bs, isEdit b = true ∧ old ∉ editedColumns b ∧ added.name ∉ editedColumns b) →
          bs.filter (Region.columns table [old, added.name]).touches = [] := by
      intro bs away
      rw [List.filter_eq_nil_iff]
      intro b mem
      obtain ⟨edit, no_old, no_new⟩ := away b mem
      simp only [Region.touches, edit, Bool.not_true, Bool.false_or, Bool.and_eq_true,
        List.any_eq_true, decide_eq_true_eq, not_and, not_exists, List.mem_cons, List.not_mem_nil,
        or_false]
      rintro _ k mem' (rfl | rfl)
      · exact no_old mem'
      · exact no_new mem'
    have quiet : (edits table).filter (Region.columns table [old, added.name]).touches = [] := by
      refine untouched _ fun b mem => ?_
      obtain ⟨fromDef, toDef', from_here, to_here, change⟩ := attribute_edit_of
        ((planned.edits_perm table t u here there).mem_iff.mp mem)
      have stays : editedColumns b = [toDef'.name] ∧ isEdit b = true := by
        rcases column_edit_cases change with ⟨rfl, _⟩ | ⟨rfl, _⟩ | rfl | rfl | rfl <;>
          exact ⟨rfl, rfl⟩
      obtain ⟨from_mem, from_name⟩ := KeyedView.get_some from_here
      have in_both : toDef'.name ∈ t.columnNames ∧ toDef'.name ∈ u.columnNames :=
        ⟨from_name ▸ List.mem_map_of_mem from_mem,
          List.mem_map_of_mem (KeyedView.get_some to_here).1⟩
      rw [stays.1, List.mem_singleton, List.mem_singleton]
      refine ⟨stays.2, fun same => old_gone (same ▸ in_both.2), fun same => ?_⟩
      exact new_absent (new_name ▸ same ▸ in_both.1)
    have replaced : (replacements table t (normalized u)).filter
        (Region.columns table [old, added.name]).touches = [] := by
      refine untouched _ fun b mem => ?_
      obtain ⟨was, wanted, rfl, _⟩ := replacements_replace b mem
      exact ⟨rfl, by simp [editedColumns], by simp [editedColumns]⟩
    have constrained : ∀ (f : TableConstraint → MigrationAction) (cs : List TableConstraint),
        (∀ c, isEdit (f c) = true ∧ editedColumns (f c) = []) →
          (cs.map f).filter (Region.columns table [old, added.name]).touches = [] := by
      intro f cs plain
      refine untouched _ fun b mem => ?_
      obtain ⟨c, _, rfl⟩ := List.mem_map.mp mem
      simp [plain c]
    have removed := constrained (.removeConstraint table ·) (removals table t (normalized u))
      fun _ => ⟨rfl, rfl⟩
    have gained := constrained (.addConstraint table ·) (orderedAdditions (created.map (·.name))
      table t (normalized u)) fun _ => ⟨rfl, rfl⟩
    rw [List.filter_map] at removed gained
    rw [drops, additions, quiet, replaced, removed, gained]
    rfl
  · intro a mem touched
    have named := local_named (planned.actions_local a mem)
    simp only [Region.touches, named, List.any_cons, List.any_nil, Bool.or_false, Bool.and_eq_true,
      decide_eq_true_eq] at touched
    exact touched.1

theorem Planned.table_pair {old new : String} {u : TableDef}
    (dropped : tableGet baseline old ≠ none ∧ tableGet models old = none)
    (absent : tableGet baseline new = none) (wanted : tableGet models new = some u) :
    PairAlone (Region.tables [old, new]).touches (.deleteTable old) (createOf u) actions := by
  obtain ⟨_, named⟩ := KeyedView.get_some wanted
  have apart : old ≠ new := fun same => dropped.1 (same ▸ absent)
  have old_plan : actionsAt actionTable old actions = [.deleteTable old] := by
    obtain ⟨t, here⟩ := Option.ne_none_iff_exists'.mp dropped.1
    rw [planned.actions_at, tablePlan, here, dropped.2]
  have new_plan : actionsAt actionTable new actions = [createOf u] := by
    rw [planned.actions_at, tablePlan, absent, wanted]
  have touched : ∀ a ∈ actions, (Region.tables [old, new]).touches a =
      (actionTable a = old || actionTable a = new) := by
    intro a mem
    simp [Region.touches, local_named (planned.actions_local a mem)]
  have both : (actions.filter (Region.tables [old, new]).touches).Perm
      [.deleteTable old, createOf u] := by
    rw [List.filter_congr touched]
    have split := (List.filter_append_perm (actionTable · = old)
      (actions.filter fun a => actionTable a = old || actionTable a = new)).symm
    rw [List.filter_filter, List.filter_filter] at split
    have first : actions.filter (fun a => actionTable a = old &&
        (actionTable a = old || actionTable a = new)) = [.deleteTable old] := by
      rw [← old_plan, actionsAt]
      refine List.filter_congr fun a _ => ?_
      by_cases here : actionTable a = old <;> simp [here]
    have second : actions.filter (fun a => !decide (actionTable a = old) &&
        (actionTable a = old || actionTable a = new)) = [createOf u] := by
      rw [← new_plan, actionsAt]
      refine List.filter_congr fun a _ => ?_
      by_cases here : actionTable a = old <;> simp [here, apart]
    rwa [first, second] at split
  exact List.perm_pair.mp both

theorem Planned.drop_once {a : MigrationAction} (mem : a ∈ actions)
    (drops : (∃ table column, a = .deleteColumn table column) ∨ ∃ table, a = .deleteTable table) :
    actions.count a = 1 := by
  have own : actions.count a =
      (tablePlan baseline models (created.map (·.name)) edits (actionTable a)).count a := by
    rw [← planned.actions_at, actionsAt, List.count_filter (by simp)]
  rw [own]
  rcases drops with ⟨table, column, rfl⟩ | ⟨table, rfl⟩
  · obtain ⟨t, u, here, there, dropped⟩ := planned.column_dropped.mp mem
    show (tablePlan baseline models _ edits table).count _ = 1
    simp only [tablePlan, here, there, tableActions, columnActions, List.count_append]
    have once : ((droppedColumns t (normalized u)).map (.deleteColumn table ·)).count
        (MigrationAction.deleteColumn table column) = 1 := by
      rw [List.count_map_of_injective _ _ fun _ _ same => (MigrationAction.deleteColumn.inj same).2]
      exact List.count_eq_one_of_mem ((KeyedView.keys_nodup _ _).filter _) dropped
    have never : ∀ bs : List MigrationAction, (∀ b ∈ bs, b ≠ .deleteColumn table column) →
        bs.count (.deleteColumn table column) = 0 :=
      fun bs other => List.count_eq_zero.mpr fun listed => other _ listed rfl
    rw [once, never (edits table), never (List.map _ (addedColumns _ _)),
      never (replacements _ _ _), never (List.map _ (removals _ _ _)),
      never (List.map _ (orderedAdditions _ _ _ _))]
    · intro b listed same
      obtain ⟨c, _, rfl⟩ := List.mem_map.mp listed
      cases same
    · intro b listed same
      obtain ⟨c, _, rfl⟩ := List.mem_map.mp listed
      cases same
    · intro b listed same
      obtain ⟨was, wanted, rfl, _⟩ := replacements_replace b listed
      cases same
    · intro b listed same
      obtain ⟨c, _, rfl⟩ := List.mem_map.mp listed
      cases same
    · rintro b listed rfl
      obtain ⟨_, _, _, _, change⟩ := attribute_edit_of
        ((planned.edits_perm table t u here there).mem_iff.mp listed)
      rcases column_edit_cases change with ⟨same, _⟩ | ⟨same, _⟩ | same | same | same <;> cases same
  · obtain ⟨present, gone⟩ := planned.table_dropped.mp mem
    obtain ⟨t, here⟩ := Option.ne_none_iff_exists'.mp present
    show (tablePlan baseline models _ edits table).count _ = 1
    simp [tablePlan, here, gone]

end Planned

/-! Answers to all drops -/

def columnOf (schema : List TableDef) (table column : String) : Option ColumnDef :=
  (tableGet schema table).bind fun t => columnGet t.columns column

/-- What a rename keeps of the columns it renames. -/
def carryOf (baseline models : List TableDef) : DropTarget → String → SchemaView → SchemaView
  | .column table old _, new =>
      match columnOf baseline table old, columnOf models table new with
      | some was, some wanted => onTableView table (onColumnView new (carried was wanted))
      | _, _ => fun m => m
  | .table old, new =>
      match tableGet baseline old, tableGet models new with
      | some was, some wanted => onTableView new (carriedTable was.columns wanted.columns)
      | _, _ => fun m => m

def carryAnswer (baseline models : List TableDef) : DropResolution × DropChoice →
    SchemaView → SchemaView
  | (_, .drop), m => m
  | (r, .renameTo new), m => carryOf baseline models r.target new m

def carryAnswers (baseline models : List TableDef) (chosen : List (DropResolution × DropChoice))
    (m : SchemaView) : SchemaView := chosen.foldr (carryAnswer baseline models) m

def targetKey : DropTarget → String → Option String × String
  | .column table _ _, new => (some table, new)
  | .table _, new => (none, new)

def renameTarget : DropResolution × DropChoice → Option (Option String × String)
  | (_, .drop) => none
  | (r, .renameTo new) => some (targetKey r.target new)

/-- A computed plan with an answer to every drop of it, out of what was offered. -/
structure Answered (lowercase : String → String) (baseline models : List TableDef)
    (plan : MigrationPlan) (chosen : List (DropResolution × DropChoice)) : Prop where
  names : TableNamesNodup baseline
  diffed : diffSchemas baseline models = .ok plan
  asked : chosen.map Prod.fst = findDropResolutions lowercase plan baseline
  offered : ∀ p ∈ chosen, ∀ new, p.2 = .renameTo new →
    new ∈ p.1.candidates.map (·.targetName)

def renamingOf (baseline models : List TableDef) (target : DropTarget) (new : String) : Renaming :=
  match target with
  | .column table old _ =>
      columnRenaming baseline table old new (carryOf baseline models target new)
  | .table old => tableRenaming baseline old new (carryOf baseline models target new)

def renamingAnswer (baseline models : List TableDef) :
    DropResolution × DropChoice → Option Renaming
  | (_, .drop) => none
  | (r, .renameTo new) => some (renamingOf baseline models r.target new)

theorem brought_cases {baseline models : List TableDef} {target : DropTarget} {new : String}
    {addition b : MigrationAction}
    (mem : b ∈ (renamingOf baseline models target new).replacement addition) :
    (∃ table old shown, target = .column table old shown ∧ b = .renameColumn table old new) ∨
    (∃ old, target = .table old ∧ b = .renameTable old new) ∨
    (isEdit b = true ∧ (∀ table old new, b ≠ .renameColumn table old new) ∧
      ∀ table added fillWith, b = MigrationAction.addColumn table added fillWith →
        table = new ∧ ∃ old, target = .table old) := by
  have changed : ∀ {table column : String} {was wanted : ColumnDef},
      b ∈ propertyChanges table column was wanted → isEdit b = true ∧
        (∀ table old new, b ≠ .renameColumn table old new) ∧
          ∀ table added fillWith, b ≠ MigrationAction.addColumn table added fillWith := by
    intro table column was wanted change
    rcases property_change_cases change with rfl | rfl | rfl <;> exact ⟨rfl, by simp, by simp⟩
  cases target with
  | column table old shown =>
    change b ∈ columnRename baseline table old new addition at mem
    unfold columnRename at mem
    split at mem
    · rcases List.mem_cons.mp mem with rfl | follow_up
      · exact .inl ⟨table, old, shown, rfl, rfl⟩
      · split at follow_up
        · obtain ⟨edit, no_rename, no_addition⟩ := changed follow_up
          exact .inr (.inr ⟨edit, no_rename, fun t c f same => absurd same (no_addition t c f)⟩)
        · cases follow_up
    · cases mem
  | table old =>
    change b ∈ tableRename baseline old new addition at mem
    unfold tableRename at mem
    split at mem
    · rcases List.mem_cons.mp mem with rfl | follow_up
      · exact .inr (.inl ⟨old, rfl, rfl⟩)
      · refine .inr (.inr ?_)
        split at follow_up
        · rcases List.mem_append.mp follow_up with change | change
          · obtain ⟨edit, named⟩ := diff_table_columns_edit b change
            simp only [diffTableColumns, List.mem_append, List.mem_map, List.mem_flatMap] at change
            rcases change with (⟨c, _, rfl⟩ | ⟨c, _, rfl⟩) | ⟨c, _, kept⟩
            · exact ⟨edit, by simp, by simp⟩
            · refine ⟨edit, by simp, fun t _ _ same => ⟨?_, old, rfl⟩⟩
              exact (MigrationAction.addColumn.inj same).1.symm
            · unfold keptChanges at kept
              split at kept
              · obtain ⟨_, no_rename, no_addition⟩ := changed kept
                exact ⟨edit, no_rename, fun t c f same => absurd same (no_addition t c f)⟩
              · cases kept
          · obtain ⟨edit, _⟩ := diff_table_constraints_edit b change
            simp only [diffTableConstraints, List.mem_append, List.mem_map] at change
            rcases change with ⟨c, _, rfl⟩ | ⟨c, _, rfl⟩ <;> exact ⟨edit, by simp, by simp⟩
        · cases follow_up
    · cases mem

theorem last_first {chosen : List (DropResolution × DropChoice)}
    (ascending : (chosen.map (·.1.actionIndex)).Pairwise (· < ·)) :
    (chosen.insertionSort fun a b => b.1.actionIndex ≤ a.1.actionIndex) = chosen.reverse := by
  induction chosen with
  | nil => rfl
  | cons p rest ih =>
    obtain ⟨before, later⟩ := List.pairwise_cons.mp ascending
    have at_end : ∀ ys : List (DropResolution × DropChoice), (∀ q ∈ ys, q ∈ rest) →
        ys.orderedInsert (fun a b => b.1.actionIndex ≤ a.1.actionIndex) p = ys ++ [p] := by
      intro ys among
      induction ys with
      | nil => rfl
      | cons q ys ih =>
        obtain ⟨here, there⟩ := List.forall_mem_cons.mp among
        have less := before q.1.actionIndex (List.mem_map_of_mem here)
        rw [List.orderedInsert_cons, if_neg (Nat.not_le.mpr less), ih there, List.cons_append]
    rw [List.insertionSort_cons, ih later, at_end _ fun q mem => List.mem_reverse.mp mem,
      List.reverse_cons]

theorem apply_answers (baseline models : List TableDef)
    (chosen : List (DropResolution × DropChoice)) (actions : List MigrationAction) :
    chosen.foldlM (fun actions answer => applyDropResolution baseline answer.1 answer.2 actions)
        actions =
      (chosen.filterMap (renamingAnswer baseline models)).foldlM (fun actions r => r.apply actions)
        actions := by
  induction chosen generalizing actions with
  | nil => rfl
  | cons p rest ih =>
    obtain ⟨r, choice⟩ := p
    cases choice with
    | drop =>
      rw [List.foldlM_cons]
      exact ih actions
    | renameTo new =>
      have same : applyDropResolution baseline r (.renameTo new) actions =
          (renamingOf baseline models r.target new).apply actions := by
        unfold applyDropResolution renamingOf
        cases r.target <;> rfl
      rw [List.foldlM_cons, List.filterMap_cons, renamingAnswer, List.foldlM_cons, same]
      simp only [ih]

section Session
variable {lowercase : String → String} {baseline models : List TableDef} {plan : MigrationPlan}
  {chosen : List (DropResolution × DropChoice)}

def dropOf : DropTarget → MigrationAction
  | .column table column _ => .deleteColumn table column
  | .table name => .deleteTable name

theorem resolution_drop {i : Nat} {a : MigrationAction} {r : DropResolution}
    (found : dropResolution lowercase plan baseline i a = some r) :
    dropOf r.target = a ∧ r.actionIndex = i := by
  cases a with
  | deleteColumn table column =>
    obtain rfl := Option.some.inj found
    exact ⟨rfl, rfl⟩
  | deleteTable table =>
    obtain rfl := Option.some.inj found
    exact ⟨rfl, rfl⟩
  | _ => cases found

theorem mem_sorted_candidates {candidates : List RenameCandidate} {c : RenameCandidate} :
    c ∈ sortCandidates candidates ↔ c ∈ candidates := (List.perm_insertionSort _ _).mem_iff

theorem offered_column {idx : Nat} {table column new : String} :
    new ∈ (resolveColumnDrop lowercase idx table column plan baseline).candidates.map
        (·.targetName) ↔
      ∃ added fillWith, MigrationAction.addColumn table added fillWith ∈ plan.actions ∧
        added.name = new := by
  have named : ∀ added, (columnCandidate lowercase (findColumnInSchema baseline table column)
      added).targetName = added.name := by
    intro added
    cases findColumnInSchema baseline table column <;> rfl
  simp only [resolveColumnDrop, List.mem_map, mem_sorted_candidates, List.mem_filterMap]
  constructor
  · rintro ⟨c, ⟨a, mem, found⟩, rfl⟩
    cases a with
    | addColumn t added fillWith =>
      simp only [Option.ite_none_right_eq_some, Option.some.injEq] at found
      obtain ⟨rfl, rfl⟩ := found
      exact ⟨added, fillWith, mem, (named added).symm⟩
    | _ => cases found
  · rintro ⟨added, fillWith, mem, rfl⟩
    exact ⟨_, ⟨_, mem, by simp⟩, named added⟩

theorem offered_table {idx : Nat} {table new : String} :
    new ∈ (resolveTableDrop idx table plan baseline).candidates.map (·.targetName) ↔
      ∃ columns constraints, .createTable new columns constraints ∈ plan.actions := by
  simp only [resolveTableDrop, List.mem_map, mem_sorted_candidates, List.mem_filterMap]
  constructor
  · rintro ⟨c, ⟨a, mem, found⟩, rfl⟩
    cases a with
    | createTable t columns constraints =>
      obtain rfl := Option.some.inj found
      exact ⟨columns, constraints, mem⟩
    | _ => cases found
  · rintro ⟨columns, constraints, mem⟩
    exact ⟨_, ⟨_, mem, rfl⟩, rfl⟩

variable (answered : Answered lowercase baseline models plan chosen)
include answered

theorem Answered.drop_listed {p : DropResolution × DropChoice} (mem : p ∈ chosen) :
    ∃ i a, plan.actions[i]? = some a ∧ dropResolution lowercase plan baseline i a = some p.1 := by
  have listed : p.1 ∈ findDropResolutions lowercase plan baseline :=
    answered.asked ▸ List.mem_map_of_mem mem
  exact mem_scan.mp listed

theorem Answered.column_choice {p : DropResolution × DropChoice} (mem : p ∈ chosen)
    {table old new shown : String} (about : p.1.target = .column table old shown)
    (chose : p.2 = .renameTo new) : ∃ t u wanted, tableGet baseline table = some t ∧
      tableGet models table = some u ∧ old ∈ droppedColumns t (normalized u) ∧
      wanted.name = new ∧ columnOf models table new = some wanted ∧
      wanted.stripInline ∈ addedColumns t (normalized u) := by
  obtain ⟨created, edits, planned⟩ := diff_schemas_planned answered.diffed
  obtain ⟨i, a, here, found⟩ := answered.drop_listed mem
  obtain ⟨dropped, _⟩ := resolution_drop found
  rw [about] at dropped
  obtain rfl := dropped
  have listed := List.mem_of_getElem? here
  have offer := answered.offered p mem new chose
  rw [← Option.some.inj found, offered_column] at offer
  obtain ⟨added, fillWith, brought, rfl⟩ := offer
  obtain ⟨t, u, in_baseline, in_models, gone⟩ := planned.column_dropped.mp listed
  obtain ⟨_, t', u', same, same', fresh⟩ := planned.column_added.mp brought
  obtain rfl := Option.some.inj (in_baseline.symm.trans same)
  obtain rfl := Option.some.inj (in_models.symm.trans same')
  have nodup := (planned.to_regular u (KeyedView.get_some in_models).1).nodup
  have u_nodup : (normalized u).columnNames.Nodup := nodup
  obtain ⟨wanted, declared, _, rfl⟩ := (mem_added u_nodup).mp fresh
  refine ⟨t, u, wanted, in_baseline, in_models, gone, rfl, ?_, fresh⟩
  rw [columnOf, in_models]
  exact KeyedView.get_of_nodup nodup declared

theorem Answered.table_choice {p : DropResolution × DropChoice} (mem : p ∈ chosen)
    {old new : String} (about : p.1.target = .table old) (chose : p.2 = .renameTo new) :
    ∃ t u, tableGet baseline old = some t ∧ tableGet models old = none ∧
      tableGet baseline new = none ∧ tableGet models new = some u := by
  obtain ⟨created, edits, planned⟩ := diff_schemas_planned answered.diffed
  obtain ⟨i, a, here, found⟩ := answered.drop_listed mem
  obtain ⟨dropped, _⟩ := resolution_drop found
  rw [about] at dropped
  obtain rfl := dropped
  have offer := answered.offered p mem new chose
  rw [← Option.some.inj found, offered_table] at offer
  obtain ⟨columns, constraints, brought⟩ := offer
  obtain ⟨present, gone⟩ := planned.table_dropped.mp (List.mem_of_getElem? here)
  obtain ⟨t, in_baseline⟩ := Option.ne_none_iff_exists'.mp present
  obtain ⟨absent, u, in_models, _⟩ := planned.table_created.mp brought
  exact ⟨t, u, in_baseline, gone, absent, in_models⟩

theorem Answered.open {p : DropResolution × DropChoice} (mem : p ∈ chosen) {new : String}
    (chose : p.2 = .renameTo new) :
    (renamingOf baseline models p.1.target new).Open (schemaView baseline) plan.actions := by
  obtain ⟨created, edits, planned⟩ := diff_schemas_planned answered.diffed
  cases about : p.1.target with
  | column table old shown =>
    obtain ⟨t, u, wanted, here, there, dropped, rfl, declared, fresh⟩ :=
      answered.column_choice mem about chose
    have nodup := (planned.from_regular t (KeyedView.get_some here).1).nodup
    obtain ⟨was, was_mem, rfl⟩ := List.mem_map.mp (mem_dropped.mp dropped).1
    have was_found : columnGet t.columns was.name = some was :=
      KeyedView.get_of_nodup nodup was_mem
    have known : findColumnInSchema baseline table was.name = some was := by
      have first : baseline.find? (·.name = table) = some t :=
        (table_at_get answered.names table).trans here
      rw [findColumnInSchema, first]
      exact find_column nodup was_found
    have u_nodup : (normalized u).columnNames.Nodup :=
      (planned.to_regular u (KeyedView.get_some there).1).nodup
    have apart : was.name ≠ wanted.stripInline.name := by
      obtain ⟨d, _, absent, same⟩ := (mem_added u_nodup).mp fresh
      intro named
      have stripped := congrArg ColumnDef.name same
      have twin : was.name = d.name := named.trans stripped
      exact absent (twin ▸ List.mem_map_of_mem was_mem)
    have carry : carryOf baseline models (.column table was.name shown) wanted.name =
        onTableView table (onColumnView wanted.stripInline.name
          (carried was wanted.stripInline)) := by
      have was_of : columnOf baseline table was.name = some was := by
        rw [columnOf, here]
        exact was_found
      simp only [carryOf, was_of, declared]
      rfl
    have pair := planned.column_pair here there dropped fresh
    refine ⟨_, _, ?_, .inl pair⟩
    simp only [renamingOf, carry]
    exact column_replaces known apart
  | table old =>
    obtain ⟨t, u, here, gone, absent, wanted⟩ := answered.table_choice mem about chose
    obtain ⟨_, rfl⟩ := KeyedView.get_some wanted
    have known : tableAt baseline old = some t := (table_at_get answered.names old).trans here
    have apart : old ≠ u.name := fun same => by
      rw [same, absent] at here
      cases here
    refine ⟨_, _, ?_, planned.table_pair ⟨by simp [here], gone⟩ absent wanted⟩
    simp only [renamingOf, carryOf, here, wanted]
    exact table_replaces known apart (planned.from_regular t (KeyedView.get_some here).1).nodup
      (planned.to_regular u (KeyedView.get_some wanted).1).nodup

/-! Answers apart -/

theorem Answered.ascending : (chosen.map (·.1.actionIndex)).Pairwise (· < ·) := by
  have listed : ((findDropResolutions lowercase plan baseline).map (·.actionIndex)).Pairwise
      (· < ·) := scan_ascending (fun found => (resolution_drop found).2)
  have same : chosen.map (·.1.actionIndex) =
      (findDropResolutions lowercase plan baseline).map (·.actionIndex) := by
    rw [← answered.asked, List.map_map]
    rfl
  rw [same]
  exact listed

theorem Answered.drops_apart : chosen.Pairwise fun p q =>
    dropOf p.1.target ≠ dropOf q.1.target := by
  obtain ⟨created, edits, planned⟩ := diff_schemas_planned answered.diffed
  have part : ((findDropResolutions lowercase plan baseline).map fun r => dropOf r.target).Sublist
      plan.actions := scan_sublist (fun found => (resolution_drop found).1)
  have same : chosen.map (fun p => dropOf p.1.target) =
      (findDropResolutions lowercase plan baseline).map fun r => dropOf r.target := by
    rw [← answered.asked, List.map_map]
    rfl
  rw [← List.pairwise_map]
  refine List.nodup_iff_count_le_one.mpr fun a => ?_
  rw [same]
  by_cases listed : a ∈ (findDropResolutions lowercase plan baseline).map fun r => dropOf r.target
  · obtain ⟨r, _, rfl⟩ := List.mem_map.mp listed
    refine (part.count_le _).trans (planned.drop_once (part.subset listed) ?_).le
    cases r.target with
    | column table column shown => exact .inl ⟨table, column, rfl⟩
    | table name => exact .inr ⟨name, rfl⟩
  · rw [List.count_eq_zero.mpr listed]
    exact Nat.zero_le 1

theorem Answered.regions_apart {p q : DropResolution × DropChoice} (mem : p ∈ chosen)
    (mem' : q ∈ chosen) (drops : dropOf p.1.target ≠ dropOf q.1.target) {new new' : String}
    (chose : p.2 = .renameTo new) (chose' : q.2 = .renameTo new')
    (targets : renameTarget p ≠ renameTarget q) :
    (renamingOf baseline models p.1.target new).region.Apart
      (renamingOf baseline models q.1.target new').region := by
  obtain ⟨⟨idx, target, candidates⟩, choice⟩ := p
  obtain ⟨⟨idx', target', candidates'⟩, choice'⟩ := q
  obtain rfl : choice = .renameTo new := chose
  obtain rfl : choice' = .renameTo new' := chose'
  obtain ⟨created, edits, planned⟩ := diff_schemas_planned answered.diffed
  cases target with
  | column table old shown =>
    obtain ⟨t, u, wanted, here, there, dropped, rfl, _, fresh⟩ :=
      answered.column_choice mem rfl rfl
    cases target' with
    | column table' old' shown' =>
      obtain ⟨t', u', wanted', here', there', dropped', rfl, _, fresh'⟩ :=
        answered.column_choice mem' rfl rfl
      intro same k inside inside'
      obtain rfl : table = table' := same
      obtain rfl := Option.some.inj (here.symm.trans here')
      obtain rfl := Option.some.inj (there.symm.trans there')
      have u_nodup : (normalized u).columnNames.Nodup :=
        (planned.to_regular u (KeyedView.get_some there).1).nodup
      have new_absent : ∀ {w : ColumnDef}, w.stripInline ∈ addedColumns t (normalized u) →
          w.name ∉ t.columnNames := by
        intro w brought
        obtain ⟨d, _, absent, twin⟩ := (mem_added u_nodup).mp brought
        have stripped := congrArg ColumnDef.name twin
        have named : w.name = d.name := stripped
        exact named ▸ absent
      have old_there := (mem_dropped.mp dropped).1
      have old_there' := (mem_dropped.mp dropped').1
      simp only [List.mem_cons, List.not_mem_nil, or_false] at inside inside'
      rcases inside with rfl | rfl
      · rcases inside' with rfl | rfl
        · exact drops rfl
        · exact new_absent fresh' old_there
      · rcases inside' with named | named
        · exact new_absent fresh (named ▸ old_there')
        · exact targets (by simp [renameTarget, targetKey, named])
    | table old' =>
      obtain ⟨t', u', here', gone', absent', there'⟩ := answered.table_choice mem' rfl rfl
      show table ∉ [old', new']
      simp only [List.mem_cons, List.not_mem_nil, or_false, not_or]
      refine ⟨?_, ?_⟩
      · rintro rfl
        rw [there] at gone'
        cases gone'
      · rintro rfl
        rw [here] at absent'
        cases absent'
  | table old =>
    obtain ⟨t, u, here, gone, absent, there⟩ := answered.table_choice mem rfl rfl
    cases target' with
    | column table' old' shown' =>
      obtain ⟨t', u', wanted', here', there', _⟩ := answered.column_choice mem' rfl rfl
      show table' ∉ [old, new]
      simp only [List.mem_cons, List.not_mem_nil, or_false, not_or]
      refine ⟨?_, ?_⟩
      · rintro rfl
        rw [there'] at gone
        cases gone
      · rintro rfl
        rw [here'] at absent
        cases absent
    | table old' =>
      obtain ⟨t', u', here', gone', absent', there'⟩ := answered.table_choice mem' rfl rfl
      intro k inside inside'
      simp only [List.mem_cons, List.not_mem_nil, or_false] at inside inside'
      rcases inside with rfl | rfl
      · rcases inside' with rfl | rfl
        · exact drops rfl
        · rw [here] at absent'
          cases absent'
      · rcases inside' with rfl | rfl
        · rw [here'] at absent
          cases absent
        · exact targets rfl

theorem Answered.runs (once : (chosen.filterMap renameTarget).Nodup) : ∃ settled,
    applyDropResolutions baseline chosen plan.actions = .ok settled ∧
      viewRun settled (schemaView baseline) =
        carryAnswers baseline models chosen (viewRun plan.actions (schemaView baseline)) ∧
      (∀ p ∈ chosen, ∀ new, p.2 = .renameTo new →
        (renamingOf baseline models p.1.target new).Done plan.actions settled) ∧
      ∀ b ∈ settled, b ∈ plan.actions ∨ ∃ p ∈ chosen, ∃ new, p.2 = .renameTo new ∧
        ∃ addition, b ∈ (renamingOf baseline models p.1.target new).replacement addition := by
  have answer_of : ∀ {r}, r ∈ chosen.reverse.filterMap (renamingAnswer baseline models) ↔
      ∃ p ∈ chosen, ∃ new, p.2 = .renameTo new ∧
        r = renamingOf baseline models p.1.target new := by
    intro r
    simp only [List.mem_filterMap, List.mem_reverse]
    refine exists_congr fun p => and_congr_right fun _ => ?_
    obtain ⟨resolution, choice⟩ := p
    cases choice <;> simp [renamingAnswer, eq_comm]
  have ready : ∀ r ∈ chosen.reverse.filterMap (renamingAnswer baseline models),
      r.Open (schemaView baseline) plan.actions := by
    intro r mem
    obtain ⟨p, listed, new, chose, rfl⟩ := answer_of.mp mem
    exact answered.open listed chose
  have apart : (chosen.reverse.filterMap (renamingAnswer baseline models)).Pairwise
      fun r r' => r.region.Apart r'.region := by
    rw [List.filterMap_reverse, List.pairwise_reverse]
    refine List.pairwise_filterMap.mpr ?_
    have both := answered.drops_apart.and (List.pairwise_filterMap.mp once)
    refine both.imp_of_mem fun {p q} mem mem' differ r first r' second => ?_
    obtain ⟨drops, targets⟩ := differ
    obtain ⟨resolution, choice⟩ := p
    obtain ⟨resolution', choice'⟩ := q
    cases choice with
    | drop => cases first
    | renameTo new =>
      cases choice' with
      | drop => cases second
      | renameTo new' =>
        obtain rfl := Option.some.inj first
        obtain rfl := Option.some.inj second
        exact apart_comm (answered.regions_apart mem mem' drops rfl rfl fun same =>
          targets _ rfl _ rfl (Option.some.inj same))
  obtain ⟨settled, ran, view, finished, _, sources⟩ := answers_run ready apart
  refine ⟨settled, ?_, ?_, ?_, ?_⟩
  · rw [applyDropResolutions, last_first answered.ascending, apply_answers baseline models]
    exact ran
  · rw [view, carryAnswers]
    have folded : ∀ (ps : List (DropResolution × DropChoice)) v,
        (ps.filterMap (renamingAnswer baseline models)).foldl (fun v r => r.carry v) v =
          ps.foldl (fun v p => carryAnswer baseline models p v) v := by
      intro ps
      induction ps with
      | nil => exact fun _ => rfl
      | cons p rest ih =>
        intro v
        obtain ⟨resolution, choice⟩ := p
        cases choice with
        | drop => exact ih v
        | renameTo new =>
          have same : (renamingOf baseline models resolution.target new).carry =
              carryOf baseline models resolution.target new := by
            unfold renamingOf
            cases resolution.target <;> rfl
          rw [List.filterMap_cons, renamingAnswer, List.foldl_cons, List.foldl_cons, ih, same]
          rfl
    rw [folded, List.foldl_reverse]
  · intro p mem new chose
    exact finished _ (answer_of.mpr ⟨p, mem, new, chose, rfl⟩)
  · intro b mem
    refine (sources b mem).imp_right ?_
    rintro ⟨r, listed, addition, new_action⟩
    obtain ⟨p, mem', new, chose, rfl⟩ := answer_of.mp listed
    exact ⟨p, mem', new, chose, addition, new_action⟩

/-! Targets chosen twice -/

def additionTest : Option String × String → MigrationAction → Bool
  | (some table, column) => addsColumn table column
  | (none, table) => createsTable table

omit answered in
theorem renaming_adds (target : DropTarget) (new : String) :
    (renamingOf baseline models target new).isAddition = additionTest (targetKey target new) := by
  cases target <;> rfl

omit answered in
theorem edit_no_addition {key : Option String × String} {b : MigrationAction}
    (edit : isEdit b = true) (apart : ∀ column added fillWith, key.1 = some column →
      b ≠ MigrationAction.addColumn column added fillWith) : additionTest key b = false := by
  obtain ⟨table, name⟩ := key
  cases table with
  | none => cases b <;> first | rfl | cases edit
  | some table =>
    cases b with
    | addColumn t added fillWith =>
      have other : t ≠ table := fun same => apart table added fillWith rfl (same ▸ rfl)
      simp [additionTest, addsColumn, other]
    | _ => rfl

/-- A rename brings in none of the additions that are chosen as targets. -/
theorem Answered.none_brought {p q : DropResolution × DropChoice} (mem : p ∈ chosen)
    (mem' : q ∈ chosen) {key : Option String × String} (target : renameTarget p = some key)
    {new : String} (chose : q.2 = .renameTo new) :
    ∀ a, ∀ b ∈ (renamingOf baseline models q.1.target new).replacement a,
      additionTest key b = false := by
  obtain ⟨⟨idx, dropped, candidates⟩, choice⟩ := p
  obtain ⟨⟨idx', dropped', candidates'⟩, choice'⟩ := q
  obtain rfl : choice' = .renameTo new := chose
  intro a b listed
  rcases brought_cases listed with ⟨table, old, shown, _, rfl⟩ | ⟨old, _, rfl⟩ |
    ⟨edit, _, only_own⟩
  · exact edit_no_addition rfl (by simp)
  · obtain ⟨table, name⟩ := key
    cases table <;> rfl
  · refine edit_no_addition edit ?_
    rintro table added fillWith own rfl
    obtain ⟨rfl, old, is_table⟩ := only_own table added fillWith rfl
    obtain ⟨_, _, _, _, absent, _⟩ := answered.table_choice mem' is_table rfl
    cases choice with
    | drop => cases target
    | renameTo chosen_new =>
      obtain rfl := Option.some.inj target
      cases dropped with
      | column table' column text =>
        obtain ⟨t, _, _, here, _⟩ := answered.column_choice mem rfl rfl
        obtain rfl := Option.some.inj own
        rw [here] at absent
        cases absent
      | table name => cases own

theorem Answered.added_once {p : DropResolution × DropChoice} (mem : p ∈ chosen)
    {key : Option String × String} (target : renameTarget p = some key) :
    plan.actions.countP (additionTest key) = 1 := by
  obtain ⟨resolution, choice⟩ := p
  cases choice with
  | drop => cases target
  | renameTo new =>
    obtain rfl := Option.some.inj target
    obtain ⟨drop, addition, replaces, alone⟩ := answered.open mem rfl
    have adds : (renamingOf baseline models resolution.target new).isAddition =
        additionTest (targetKey resolution.target new) := renaming_adds _ _
    rw [← adds]
    generalize renamingOf baseline models resolution.target new = r at replaces alone
    have inside : plan.actions.countP r.isAddition =
        (plan.actions.filter r.region.touches).countP r.isAddition := by
      rw [List.countP_filter]
      refine List.countP_congr fun a _ => ?_
      cases touched : r.region.touches a with
      | false => simp [replaces.pair.addition_touches a touched]
      | true => simp
    rw [inside]
    rcases alone with pair | pair <;>
      simp [pair, replaces.pair.adds, replaces.pair.not_addition]

theorem Answered.targets_used {key : Option String × String}
    (chose : ∃ p ∈ chosen, renameTarget p = some key)
    {answers : List (DropResolution × DropChoice)} (among : ∀ q ∈ answers, q ∈ chosen)
    {actions settled : List MigrationAction}
    (ran : answers.foldlM
      (fun actions answer => applyDropResolution baseline answer.1 answer.2 actions) actions =
        .ok settled) :
    (answers.filterMap renameTarget).count key + settled.countP (additionTest key) ≤
      actions.countP (additionTest key) := by
  obtain ⟨p, mem, target⟩ := chose
  rw [apply_answers baseline models] at ran
  induction answers generalizing actions with
  | nil =>
    obtain rfl := Except.ok.inj ran
    simp
  | cons q rest ih =>
    obtain ⟨here, later⟩ := List.forall_mem_cons.mp among
    obtain ⟨resolution, choice⟩ := q
    cases choice with
    | drop => exact ih later ran
    | renameTo new =>
      rw [List.filterMap_cons, renamingAnswer, List.foldlM_cons] at ran
      obtain ⟨next, applied, ran⟩ := Results.bind_ok ran
      have left := ih later ran
      have counts := rewrite_count (q := additionTest key) applied
        (answered.none_brought mem here target rfl)
      rw [renaming_adds] at counts
      rw [List.filterMap_cons, renameTarget, List.count_cons]
      by_cases own : targetKey resolution.target new = key
      · have used := counts.2 (congrArg additionTest own)
        simp only [own, BEq.rfl, if_true]
        omega
      · have kept := counts.1
        simp only [beq_iff_eq, own, if_false]
        omega

/-! Replay -/

/-- The settled plan renames a column before it does anything else with it. -/
theorem Answered.rename_first {settled before after : List MigrationAction}
    {table old new : String} (split : settled = before ++ .renameColumn table old new :: after)
    (finished : ∀ p ∈ chosen, ∀ new, p.2 = .renameTo new →
      (renamingOf baseline models p.1.target new).Done plan.actions settled)
    (sources : ∀ b ∈ settled, b ∈ plan.actions ∨ ∃ p ∈ chosen, ∃ new, p.2 = .renameTo new ∧
      ∃ addition, b ∈ (renamingOf baseline models p.1.target new).replacement addition) :
    (∀ b ∈ before, (Region.columns table [old, new]).touches b = false) ∧
      ∀ v, schemaView baseline table = some v → v new = none := by
  obtain ⟨created, edits, planned⟩ := diff_schemas_planned answered.diffed
  have mem : MigrationAction.renameColumn table old new ∈ settled := by simp [split]
  rcases sources _ mem with from_plan | ⟨⟨⟨idx, target, candidates⟩, choice⟩, listed, new', chose,
    addition, brought⟩
  · exact absurd from_plan planned.no_renames
  · obtain rfl : choice = .renameTo new' := chose
    rcases brought_cases brought with ⟨table', old', shown, rfl, same⟩ | ⟨old', _, same⟩ |
      ⟨_, no_rename, _⟩
    · cases same
      refine ⟨?_, ?_⟩
      · obtain ⟨added, _, adds, _, inside⟩ := finished _ listed new rfl
        change settled.filter (Region.columns table [old, new]).touches =
          columnRename baseline table old new added at inside
        have shape : ∃ changes, columnRename baseline table old new added =
            .renameColumn table old new :: changes ∧
              ∀ b ∈ changes, b ≠ .renameColumn table old new := by
          change addsColumn table new added = true at adds
          cases added with
          | addColumn t c fillWith =>
            refine ⟨_, rfl, fun b follow_up same => ?_⟩
            split at follow_up
            · rcases property_change_cases follow_up with rfl | rfl | rfl <;> cases same
            · cases follow_up
          | _ => cases adds
        obtain ⟨changes, whole, others⟩ := shape
        have touched : (Region.columns table [old, new]).touches (.renameColumn table old new) =
            true := by
          simp [Region.touches, namedTables, MigrationAction.tableName, editedColumns]
        rw [whole, split, List.filter_append, List.filter_cons_of_pos touched] at inside
        have nothing : before.filter (Region.columns table [old, new]).touches = [] := by
          cases front : before.filter (Region.columns table [old, new]).touches with
          | nil => rfl
          | cons b rest =>
            rw [front, List.cons_append, List.cons.injEq] at inside
            exact absurd rfl (others (.renameColumn table old new) (inside.2 ▸ by simp))
        intro b early
        have untouched := List.filter_eq_nil_iff.mp nothing b early
        simpa using untouched
      · intro v seen
        obtain ⟨t, u, wanted, here, there, _, rfl, _, fresh⟩ :=
          answered.column_choice listed rfl rfl
        have u_nodup : (normalized u).columnNames.Nodup :=
          (planned.to_regular u (KeyedView.get_some there).1).nodup
        obtain ⟨d, _, absent, twin⟩ := (mem_added u_nodup).mp fresh
        have stripped := congrArg ColumnDef.name twin
        have named : wanted.name = d.name := stripped
        have found : tableAt baseline table = some t :=
          (table_at_get answered.names table).trans here
        have columns : v = columnsView t.columns := by
          rw [schemaView, found] at seen
          exact (Option.some.inj seen).symm
        rw [columns, columns_view_none]
        intro c listed_column same
        exact absent (named ▸ same ▸ List.mem_map_of_mem listed_column)
    · cases same
    · exact absurd rfl (no_rename table old new)

end Session

theorem Answered.targets_once {lowercase : String → String} {baseline models : List TableDef}
    {plan : MigrationPlan} {chosen : List (DropResolution × DropChoice)}
    (answered : Answered lowercase baseline models plan chosen) {settled : List MigrationAction}
    (ran : applyDropResolutions baseline chosen plan.actions = .ok settled) :
    (chosen.filterMap renameTarget).Nodup := by
  rw [applyDropResolutions, last_first answered.ascending] at ran
  refine List.nodup_iff_count_le_one.mpr fun key => ?_
  by_cases listed : key ∈ chosen.filterMap renameTarget
  · obtain ⟨p, mem, target⟩ := List.mem_filterMap.mp listed
    have used := answered.targets_used ⟨p, mem, target⟩
      (fun q reversed => List.mem_reverse.mp reversed) ran
    rw [List.filterMap_reverse, List.count_reverse, answered.added_once mem target] at used
    omega
  · rw [List.count_eq_zero.mpr listed]
    exact Nat.zero_le 1

/-- The answers go through exactly when no target is chosen twice. -/
theorem answers_settle_iff {lowercase : String → String} {baseline models : List TableDef}
    {plan : MigrationPlan} {chosen : List (DropResolution × DropChoice)}
    (answered : Answered lowercase baseline models plan chosen) :
    (∃ settled, applyDropResolutions baseline chosen plan.actions = .ok settled) ↔
      (chosen.filterMap renameTarget).Nodup := by
  constructor
  · rintro ⟨settled, ran⟩
    exact answered.targets_once ran
  · intro once
    obtain ⟨settled, ran, _⟩ := answered.runs once
    exact ⟨settled, ran⟩

def contactTable (columns : List ColumnDef) : TableDef := ⟨"member", none, columns, []⟩

def mailColumn : ColumnDef :=
  { ColumnDef.new "mail" (.simple .text) false with comment := some "private" }

def phoneColumn : ColumnDef := .new "phone" (.simple .text) true

def contactColumn : ColumnDef := .new "contact" (.simple .text) true

def memberDrop (idx : Nat) (column shown : String) (matchQuality : Match)
    (differences : List String) : DropResolution :=
  ⟨idx, .column "member" column shown, [⟨"contact", matchQuality, differences⟩]⟩

def memberPlan (columns : List String) : MigrationPlan :=
  ⟨"", none, none, 0, columns.map (.deleteColumn "member" ·) ++
    [MigrationAction.addColumn "member" contactColumn none]⟩

def contactTwice : List (DropResolution × DropChoice) :=
  [(memberDrop 0 "mail" "text NOT NULL" .sameType ["nullable: false → true"], .renameTo "contact"),
    (memberDrop 1 "phone" "text" .exact [], .renameTo "contact")]

set_option maxRecDepth 100000 in
theorem contact_twice_unsettled : ¬ ∃ settled, applyDropResolutions
    [contactTable [mailColumn, phoneColumn]] contactTwice (memberPlan ["mail", "phone"]).actions =
      .ok settled := by
  have answered : Answered id [contactTable [mailColumn, phoneColumn]]
      [contactTable [contactColumn]] (memberPlan ["mail", "phone"]) contactTwice :=
    ⟨by decide, by decide, by decide, by simp [contactTwice, memberDrop]⟩
  exact (answers_settle_iff answered).not.mpr (by decide)

/-- What the rewritten plan replays to has the columns that the plan replays to, but for what
    the renames carry over. -/
theorem settled_columns {lowercase : String → String} {baseline models : List TableDef}
    {plan : MigrationPlan} {chosen : List (DropResolution × DropChoice)}
    (answered : Answered lowercase baseline models plan chosen) {settled : List MigrationAction}
    (ran : applyDropResolutions baseline chosen plan.actions = .ok settled)
    {unsettled s' : Schema} (applied : applyActions baseline plan.actions = .ok unsettled)
    (applied' : applyActions baseline settled = .ok s') :
    schemaView s' = carryAnswers baseline models chosen (schemaView unsettled) := by
  obtain ⟨created, edits, planned⟩ := diff_schemas_planned answered.diffed
  obtain ⟨settled', ran', view, finished, sources⟩ :=
    answered.runs (answered.targets_once ran)
  obtain rfl := Except.ok.inj (ran.symm.trans ran')
  have distinct : DistinctColumns baseline := fun t mem => (planned.from_regular t mem).nodup
  have plan_creates : ∀ a ∈ plan.actions, CreatesDistinct a := by
    intro a mem
    cases a with
    | createTable table columns constraints =>
      obtain ⟨_, u, there, rfl, _⟩ := planned.table_created.mp mem
      exact (planned.to_regular u (KeyedView.get_some there).1).nodup
    | _ => trivial
  have creates : ∀ a ∈ settled, CreatesDistinct a := by
    intro a mem
    rcases sources a mem with
      old | ⟨⟨⟨idx, target, candidates⟩, choice⟩, _, new, _, addition, brought⟩
    · exact plan_creates a old
    · rcases brought_cases brought with ⟨_, _, _, _, rfl⟩ | ⟨_, _, rfl⟩ | ⟨edit, _⟩
      · trivial
      · trivial
      · cases a <;> trivial
  have untouched_view : schemaView unsettled = viewRun plan.actions (schemaView baseline) := by
    refine fresh_renames_view answered.names distinct plan_creates ?_ applied
    intro before table old new after split
    have listed : MigrationAction.renameColumn table old new ∈ plan.actions := by simp [split]
    exact absurd listed planned.no_renames
  have fresh : ∀ before table old new after,
      settled = before ++ .renameColumn table old new :: after →
        ∀ v, viewRun before (schemaView baseline) table = some v → v new = none := by
    intro before table old new after split v seen
    obtain ⟨untouched, absent⟩ := answered.rename_first split finished sources
    -- clearing the new name first changes nothing, and nothing before the rename touches it
    let clear : TableView → TableView := fun v => Function.update v new none
    have inside : (Region.columns table [old, new]).Inside (onTableView table clear) :=
      ⟨clear, within_update (by simp) fun _ _ _ => rfl, rfl⟩
    have cleared : onTableView table clear (schemaView baseline) = schemaView baseline := by
      funext k
      by_cases own : k = table
      · subst own
        cases here : schemaView baseline k with
        | none => simp [onTableView, here]
        | some w =>
          have kept : Function.update w new none = w := by
            rw [← absent w here, Function.update_eq_self]
          simp [onTableView, here, clear, kept]
      · simp [onTableView, own]
    rw [← cleared, carried_run inside untouched] at seen
    cases here : viewRun before (schemaView baseline) table with
    | none => simp [onTableView, here] at seen
    | some w =>
      simp only [onTableView, Function.update_self, here, Option.map_some,
        Option.some.injEq] at seen
      rw [← seen]
      exact Function.update_self ..
  rw [fresh_renames_view answered.names distinct creates fresh applied', view, untouched_view]

def mailRenamed : List (DropResolution × DropChoice) :=
  [(memberDrop 0 "mail" "text NOT NULL" .sameType ["nullable: false → true"], .renameTo "contact")]

set_option maxRecDepth 100000 in
/-- The comment of the old column is kept, although the new one has none. -/
theorem mail_renamed_columns :
    schemaView [contactTable [{ contactColumn with comment := some "private" }]] =
      carryAnswers [contactTable [mailColumn]] [contactTable [contactColumn]] mailRenamed
        (schemaView [contactTable [contactColumn]]) := by
  have answered : Answered id [contactTable [mailColumn]] [contactTable [contactColumn]]
      (memberPlan ["mail"]) mailRenamed :=
    ⟨by decide, by decide, by decide, by simp [mailRenamed, memberDrop]⟩
  have ran : applyDropResolutions [contactTable [mailColumn]] mailRenamed
      (memberPlan ["mail"]).actions = .ok [.renameColumn "member" "mail" "contact",
        .modifyColumnNullable "member" "contact" true none none] := by decide
  exact settled_columns answered ran (by decide) (by decide)

/-! Recreated tables -/

theorem self_rename_fails (schema : Schema) (name : String) :
    (applyAction schema (.renameTable name name)).error ≠ none := by
  simp only [applyAction, renameTable]
  split
  · simp [Outcome.fail]
  · rename_i untaken
    have absent : tableAt schema name = none := by
      rw [table_at_none]
      simpa using untaken
    rw [on_table_missing absent]
    simp [Outcome.fail]

theorem self_rename_unreplayable {actions : List MigrationAction} {name : String}
    (mem : .renameTable name name ∈ actions) (schema s' : Schema) :
    applyActions schema actions ≠ .ok s' := by
  induction actions generalizing schema with
  | nil => cases mem
  | cons a rest ih =>
    intro applied
    rw [apply_actions_cons] at applied
    obtain ⟨next, stepped, ran⟩ := Results.bind_ok applied
    rcases List.mem_cons.mp mem with rfl | later
    · exact self_rename_fails schema name (to_except_ok.mp stepped).1
    · exact ih later next ran

theorem rename_stays {baseline : List TableDef} {old new : String}
    {answers : List (DropResolution × DropChoice)} {actions settled : List MigrationAction}
    (ran : answers.foldlM
      (fun actions answer => applyDropResolution baseline answer.1 answer.2 actions) actions =
        .ok settled)
    (there : .renameTable old new ∈ actions ∨
      ∃ r, (r, .renameTo new) ∈ answers ∧ r.target = .table old) :
    .renameTable old new ∈ settled := by
  rw [apply_answers baseline []] at ran
  induction answers generalizing actions with
  | nil =>
    obtain rfl := Except.ok.inj ran
    simpa using there
  | cons p rest ih =>
    obtain ⟨resolution, choice⟩ := p
    cases choice with
    | drop =>
      refine ih ran (there.imp_right ?_)
      rintro ⟨r, mem, about⟩
      exact ⟨r, by simpa using mem, about⟩
    | renameTo target =>
      rw [List.filterMap_cons, renamingAnswer, List.foldlM_cons] at ran
      obtain ⟨next, applied, ran⟩ := Results.bind_ok ran
      have told : ∀ a, (renamingOf baseline [] resolution.target target).isDrop a = true →
          (renamingOf baseline [] resolution.target target).isAddition a = false := by
        cases resolution.target <;> intro a <;> cases a <;> first | exact fun _ => rfl | nofun
      obtain ⟨kept, addition, adds, brought⟩ := rewrite_mem told applied
      refine ih ran ?_
      rcases there with there | ⟨r, mem, about⟩
      · refine .inl (kept _ there ?_ ?_) <;> cases resolution.target <;> rfl
      · rcases List.mem_cons.mp mem with same | later
        · obtain ⟨rfl, same_choice⟩ := Prod.mk.inj same
          obtain rfl := DropChoice.renameTo.inj same_choice
          rw [about] at adds brought
          refine .inl (brought _ ?_)
          change createsTable new addition = true at adds
          change _ ∈ tableRename baseline old new addition
          cases addition with
          | createTable t columns constraints => exact List.mem_cons_self
          | _ => cases adds
        · exact .inr ⟨r, later, about⟩

/-- After a confirmed recreation the table is offered as a rename target of itself, and a plan
    settled with this answer replays on no schema. -/
theorem recreated_self_rename (lowercase : String → String) {plan plan' : MigrationPlan}
    {baseline models : List TableDef} {confirm : List RecreateTableRequired → Except String Bool}
    (recreated : handleRecreateRequirements plan models confirm = .ok plan') {name : String}
    (required : name ∈ tablesToRecreate (findNonNullableFkAddColumns plan models))
    (known : (models.find? (·.name = name)).isSome) :
    (∃ r ∈ findDropResolutions lowercase plan' baseline, r.target = .table name ∧
      name ∈ r.candidates.map (·.targetName)) ∧
    ∀ chosen settled r, (r, .renameTo name) ∈ chosen → r.target = .table name →
      applyDropResolutions baseline chosen plan'.actions = .ok settled →
        ∀ schema s', applyActions schema settled ≠ .ok s' := by
  refine ⟨?_, ?_⟩
  · obtain ⟨model, found⟩ := Option.isSome_iff_exists.mp known
    have named : model.name = name := by simpa using List.find?_some found
    have rewritten : plan' =
        rewritePlanForRecreation plan (findNonNullableFkAddColumns plan models) models := by
      simp only [handleRecreateRequirements] at recreated
      split at recreated
      · rename_i nothing
        rw [nothing] at required
        simp [tablesToRecreate] at required
      · split at recreated
        · cases recreated
        · cases recreated
        · exact (Except.ok.inj recreated).symm
    have brought : ∀ a ∈ recreation models name, a ∈ plan'.actions := by
      intro a mem
      rw [rewritten]
      exact List.mem_append_right _ (List.mem_flatMap.mpr ⟨name, required, mem⟩)
    have block : recreation models name =
        [.deleteTable name, .createTable name model.columns model.constraints] := by
      rw [recreation, found, ← named]
    obtain ⟨i, at_i, here⟩ := List.getElem_of_mem (brought (.deleteTable name) (by simp [block]))
    refine ⟨resolveTableDrop i name plan' baseline, ?_, rfl, ?_⟩
    · refine mem_scan.mpr ⟨i, .deleteTable name, ?_, rfl⟩
      rw [List.getElem?_eq_getElem at_i, here]
    · exact offered_table.mpr ⟨model.columns, model.constraints, brought _ (by simp [block])⟩
  · intro chosen settled r mem about ran
    refine self_rename_unreplayable (rename_stays ran (.inr ⟨r, ?_, about⟩))
    exact (List.perm_insertionSort _ chosen).mem_iff.mpr mem

def branchTable (columns : List ColumnDef) : TableDef := ⟨"branch", none, columns, []⟩

def ownerColumn : ColumnDef :=
  { ColumnDef.new "owner" (.simple .integer) false with
    foreignKey := some (.string "member.id") }

def branchPlan : MigrationPlan :=
  ⟨"", none, none, 0, [MigrationAction.addColumn "branch" ownerColumn none]⟩

def branchRecreated : MigrationPlan := rewritePlanForRecreation branchPlan
  [⟨"branch", "owner", .addColumnWithFk⟩] [branchTable [ownerColumn]]

theorem branch_self_rename :
    (∃ r ∈ findDropResolutions id branchRecreated [branchTable []], r.target = .table "branch" ∧
      "branch" ∈ r.candidates.map (·.targetName)) ∧
    ∀ chosen settled r, (r, .renameTo "branch") ∈ chosen → r.target = .table "branch" →
      applyDropResolutions [branchTable []] chosen branchRecreated.actions = .ok settled →
        ∀ schema s', applyActions schema settled ≠ .ok s' := by
  have confirmed : handleRecreateRequirements branchPlan [branchTable [ownerColumn]]
      (fun _ => .ok true) = .ok branchRecreated := by decide
  exact recreated_self_rename id confirmed (by decide) (by decide)

end Vespertide
