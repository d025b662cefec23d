import Vespertide.ColumnInvariants

/-!
Migrations under a table prefix. Every action is rewritten but a remapping of
enum values, and every constraint; the inline foreign keys of a column payload
keep the table they name.
-/
namespace Vespertide
open AppendMissing

/-! The rewriting of plans -/

def tableNameWithPrefix (pre name : String) : String := if pre = "" then name else pre ++ name

def TableConstraint.withPrefix (pre : String) (c : TableConstraint) : TableConstraint :=
  if pre = "" then c
  else match c with
    | .foreignKey name columns refTable refColumns onDelete onUpdate orphanStrategy =>
        .foreignKey name columns (tableNameWithPrefix pre refTable) refColumns onDelete onUpdate
          orphanStrategy
    | other => other

def prefixRemainingAction (pre : String) : MigrationAction → MigrationAction
  | .modifyColumnDefault table column newDefault backfill =>
      .modifyColumnDefault (tableNameWithPrefix pre table) column newDefault backfill
  | .modifyColumnComment table column newComment =>
      .modifyColumnComment (tableNameWithPrefix pre table) column newComment
  | .addConstraint table constraint =>
      .addConstraint (tableNameWithPrefix pre table) (constraint.withPrefix pre)
  | .removeConstraint table constraint =>
      .removeConstraint (tableNameWithPrefix pre table) (constraint.withPrefix pre)
  | .replaceConstraint table old new =>
      .replaceConstraint (tableNameWithPrefix pre table) (old.withPrefix pre) (new.withPrefix pre)
  | other => other

def prefixColumnOrConstraintAction (pre : String) : MigrationAction → MigrationAction
  | .addColumn table column fillWith => .addColumn (tableNameWithPrefix pre table) column fillWith
  | .renameColumn table old new => .renameColumn (tableNameWithPrefix pre table) old new
  | .deleteColumn table column => .deleteColumn (tableNameWithPrefix pre table) column
  | .modifyColumnType table column newType fillWith narrowingStrategy timezone =>
      .modifyColumnType (tableNameWithPrefix pre table) column newType fillWith narrowingStrategy
        timezone
  | .modifyColumnNullable table column nullable fillWith deleteNullRows =>
      .modifyColumnNullable (tableNameWithPrefix pre table) column nullable fillWith deleteNullRows
  | other => prefixRemainingAction pre other

def prefixMigrationAction (pre : String) : MigrationAction → MigrationAction
  | .createTable table columns constraints =>
      .createTable (tableNameWithPrefix pre table) columns (constraints.map (·.withPrefix pre))
  | .deleteTable table => .deleteTable (tableNameWithPrefix pre table)
  | .renameTable old new =>
      .renameTable (tableNameWithPrefix pre old) (tableNameWithPrefix pre new)
  | .rawSql sql => .rawSql sql
  | .dataMigration sql description => .dataMigration sql description
  | other => prefixColumnOrConstraintAction pre other

def MigrationAction.withPrefix (pre : String) (a : MigrationAction) : MigrationAction :=
  if pre = "" then a else prefixMigrationAction pre a

def MigrationPlan.withPrefix (pre : String) (plan : MigrationPlan) : MigrationPlan :=
  if pre = "" then plan else { plan with actions := plan.actions.map (·.withPrefix pre) }

/-! The prefixed schema -/

def prefixedReference (pre : String) : ForeignKeySyntax → ForeignKeySyntax
  | .string reference => .string (pre ++ reference)
  | .reference r => .reference { r with references := pre ++ r.references }
  | .object d => .object { d with refTable := pre ++ d.refTable }

def prefixedColumn (pre : String) (c : ColumnDef) : ColumnDef :=
  { c with foreignKey := c.foreignKey.map (prefixedReference pre) }

def prefixedTable (pre : String) (t : TableDef) : TableDef :=
  { t with
    name := pre ++ t.name
    columns := t.columns.map (prefixedColumn pre)
    constraints := t.constraints.map (·.withPrefix pre) }

/-- Every table name and every referenced table under the prefix, and nothing else changed. -/
def prefixedSchema (pre : String) (schema : Schema) : Schema := schema.map (prefixedTable pre)

theorem prefixed_spelling (pre name : String) : tableNameWithPrefix pre name = pre ++ name := by
  unfold tableNameWithPrefix
  split
  · rename_i empty
    rw [empty, String.empty_append]
  · rfl

/-! One constraint -/

section Constraint
variable (pre : String)

theorem prefixed_constraint (c : TableConstraint) : c.withPrefix pre = match c with
    | .foreignKey name columns refTable refColumns onDelete onUpdate orphanStrategy =>
        .foreignKey name columns (pre ++ refTable) refColumns onDelete onUpdate orphanStrategy
    | other => other := by
  unfold TableConstraint.withPrefix
  split
  · rename_i empty
    cases c <;> simp [empty]
  · cases c <;> simp [prefixed_spelling]

theorem constraint_prefix_inj {c d : TableConstraint} :
    c.withPrefix pre = d.withPrefix pre ↔ c = d := by
  rw [prefixed_constraint, prefixed_constraint]
  cases c <;> cases d <;> simp [String.append_right_inj]

theorem mem_prefixed {c : TableConstraint} {constraints : List TableConstraint} :
    c.withPrefix pre ∈ constraints.map (·.withPrefix pre) ↔ c ∈ constraints := by
  simp [constraint_prefix_inj]

theorem covers_prefixed (e x : TableConstraint) : covers (e.withPrefix pre) x = covers e x := by
  rw [prefixed_constraint]
  cases e <;> rfl

theorem dropped_prefixed (column : String) (c : TableConstraint) :
    dropColumnFromConstraint column (c.withPrefix pre) =
      (dropColumnFromConstraint column c).map (·.withPrefix pre) := by
  rw [prefixed_constraint]
  cases c <;> simp only [dropColumnFromConstraint] <;> try split
  all_goals simp [prefixed_constraint]

theorem renamed_prefixed (old new : String) (c : TableConstraint) :
    renameColumnInConstraint old new (c.withPrefix pre) =
      (renameColumnInConstraint old new c).withPrefix pre := by
  simp only [prefixed_constraint]
  cases c <;> rfl

theorem retargeted_prefixed (old new : String) (c : TableConstraint) :
    retargetConstraint (pre ++ old) (pre ++ new) (c.withPrefix pre) =
      (retargetConstraint old new c).withPrefix pre := by
  simp only [prefixed_constraint]
  cases c <;> simp only [retargetConstraint, String.append_right_inj]
  split <;> rfl

theorem replaced_prefixed (old new : TableConstraint) (constraints : List TableConstraint) :
    replaceFirst (old.withPrefix pre) (new.withPrefix pre) (constraints.map (·.withPrefix pre)) =
      (replaceFirst old new constraints).map (·.withPrefix pre) := by
  induction constraints with
  | nil => rfl
  | cons c rest ih =>
    simp only [List.map_cons, replaceFirst, constraint_prefix_inj]
    split
    · rfl
    · rw [ih, List.map_cons]

end Constraint

/-! One table -/

/-- No column declares a foreign key inline. -/
def NoReferences (columns : List ColumnDef) : Prop := ∀ c ∈ columns, c.foreignKey = none

section Table
variable {pre : String}

theorem prefixed_column_fixed {c : ColumnDef} (nonempty : pre ≠ "") :
    prefixedColumn pre c = c ↔ c.foreignKey = none := by
  have moved : ∀ fkSyntax, prefixedReference pre fkSyntax ≠ fkSyntax := by
    intro fkSyntax same
    cases fkSyntax with
    | string reference => simp [prefixedReference, String.append_eq_right_iff, nonempty] at same
    | reference r =>
      simp only [prefixedReference, ForeignKeySyntax.reference.injEq] at same
      have own := congrArg ReferenceSyntaxDef.references same
      simp [String.append_eq_right_iff, nonempty] at own
    | object d =>
      simp only [prefixedReference, ForeignKeySyntax.object.injEq] at same
      have own := congrArg ForeignKeyDef.refTable same
      simp [String.append_eq_right_iff, nonempty] at own
  constructor
  · intro same
    have own := congrArg ColumnDef.foreignKey same
    cases declared : c.foreignKey with
    | none => rfl
    | some fkSyntax =>
      simp only [prefixedColumn, declared, Option.map_some, Option.some.injEq] at own
      exact absurd own (moved fkSyntax)
  · intro none_declared
    cases c
    simp_all [prefixedColumn]

theorem prefixed_columns_fixed (nonempty : pre ≠ "") {columns : List ColumnDef} :
    columns = columns.map (prefixedColumn pre) ↔ NoReferences columns := by
  unfold NoReferences
  induction columns with
  | nil => simp
  | cons c rest ih =>
    rw [List.map_cons, List.cons.injEq, List.forall_mem_cons, ← ih, ← prefixed_column_fixed nonempty,
      @eq_comm _ c]

def movedTable (pre : String) (t : TableDef) : TableDef :=
  { t with name := pre ++ t.name, constraints := t.constraints.map (·.withPrefix pre) }

theorem prefixed_table_iff (nonempty : pre ≠ "") (t : TableDef) :
    movedTable pre t = prefixedTable pre t ↔ NoReferences t.columns := by
  rw [← prefixed_columns_fixed nonempty]
  simp [movedTable, prefixedTable]

theorem promoted_moved {t : TableDef} (none_declared : NoReferences t.columns) :
    promoted (movedTable pre t) = (promoted t).map (·.withPrefix pre) := by
  apply append_missing_map t.constraints (covers_prefixed pre)
  intro x mem
  rw [prefixed_constraint]
  rcases candidate_cases mem with ⟨_, rfl⟩ | ⟨_, _, rfl⟩ | ⟨c, here, fkSyntax, _, declared, _⟩ |
    ⟨_, _, rfl⟩
  · rfl
  · rfl
  · rw [none_declared c here] at declared
    cases declared
  · rfl

end Table

/-! The condition on an action -/

/-- A remapping that leaves the columns of a table as they are. -/
def RemapIdle (mapping : List (Int × Int)) (column : String) (columns : List ColumnDef) : Prop :=
  mapFirstColumn column (fun c => { c with type := remapType mapping c.type }) columns = columns

/-- The constraint clears the same inline declarations under both names of the table. -/
def ClearsAlike (pre table : String) (c : TableConstraint) (columns : List ColumnDef) : Prop :=
  clearInlineConstraintFields (pre ++ table) c columns = clearInlineConstraintFields table c columns

/-- The column payloads declare no foreign key, a removed constraint clears alike, and a
    remapping, which keeps its table name, finds a table there and changes nothing. -/
def Prefixable (pre : String) (schema : Schema) : MigrationAction → Prop
  | .createTable _ columns _ => NoReferences columns
  | .addColumn _ column _ => column.foreignKey = none
  | .removeConstraint table constraint => ∀ t, tableAt schema table = some t →
      ClearsAlike pre table constraint t.columns
  | .replaceConstraint table old _ => ∀ t, tableAt schema table = some t →
      ClearsAlike pre table old t.columns
  | .remapEnumValues table column mapping =>
      (∃ u, tableAt schema u.name = some u ∧ pre ++ u.name = table ∧ column ∈ u.columnNames ∧
        RemapIdle mapping column u.columns) ∧
      ∀ t, tableAt schema table = some t → RemapIdle mapping column t.columns
  | _ => True

/-! One step -/

theorem no_reference_closed : ClosedUnderEdits (fun c => c.foreignKey = none) where
  attributes c d same held := (congrArg ColumnDef.foreignKey same).trans held
  renamed c new held := held
  primaryKey c held := held
  foreignKey c held := rfl
  unique c held := held
  index c held := held
  uniqueName c name held := by rw [clear_unique_name_eq, held]
  indexName c name held := by rw [clear_index_name_eq, held]

section Step
variable {pre : String} (nonempty : pre ≠ "")
include nonempty

theorem with_prefix_eq (a : MigrationAction) : a.withPrefix pre = prefixMigrationAction pre a := by
  rw [MigrationAction.withPrefix, if_neg nonempty]

/-- What the condition asks of the table that an edit finds. -/
def PrefixableOn (pre : String) (t : TableDef) : MigrationAction → Prop
  | .addColumn _ column _ => column.foreignKey = none
  | .removeConstraint table constraint => ClearsAlike pre table constraint t.columns
  | .replaceConstraint table old _ => ClearsAlike pre table old t.columns
  | _ => True

theorem added_prefixed {table : String} {column : ColumnDef} {t : TableDef}
    (refs : NoReferences t.columns) (ok : (addColumnTo table column t).error = none) :
    addColumnTo (pre ++ table) column (movedTable pre t) =
        .ok (prefixedTable pre (addColumnTo table column t).state) ↔ column.foreignKey = none := by
  have fresh : column.name ∉ t.columnNames := by
    intro present
    simp [add_column_present present, Outcome.fail] at ok
  have accepted : Normalizable (t.columns ++ [column]) := by
    by_contra refused
    exact (add_column_refused table fresh refused).2 ok
  have added := @add_column_to (pre ++ table) column (movedTable pre t) fresh accepted
  rw [added, add_column_to fresh accepted]
  simp only [Outcome.ok, Outcome.mk.injEq, and_true]
  have whole : NoReferences (t.columns ++ [column]) ↔ column.foreignKey = none := by
    constructor
    · intro all
      exact all column (by simp)
    · intro own c mem
      rcases List.mem_append.mp mem with old | new
      · exact refs c old
      · rw [List.mem_singleton.mp new, own]
  rw [← whole]
  constructor
  · intro same
    exact (prefixed_columns_fixed nonempty).mp (congrArg TableDef.columns same)
  · intro none_declared
    have moved := @promoted_moved pre { t with columns := t.columns ++ [column] }
      none_declared
    rw [← (prefixed_table_iff nonempty _).mpr none_declared]
    simp only [movedTable, TableDef.mk.injEq, true_and]
    exact moved

omit nonempty in
theorem on_column_moved {table column : String} {f : ColumnDef → ColumnDef} {t : TableDef}
    (ok : (onColumn table column f t).error = none) :
    onColumn (pre ++ table) column f (movedTable pre t) =
      .ok (movedTable pre (onColumn table column f t).state) := by
  unfold onColumn at ok ⊢
  split at ok
  · rename_i present
    rw [if_pos present, if_pos (show column ∈ (movedTable pre t).columnNames from present)]
    rfl
  · simp [Outcome.fail] at ok

omit nonempty in
theorem cleared_prefixed (table : String) (c : TableConstraint) (columns : List ColumnDef) :
    clearInlineConstraintFields table (c.withPrefix pre) columns =
      clearInlineConstraintFields table c columns := by
  rw [prefixed_constraint]
  cases c <;> rfl

theorem edit_moved {a : MigrationAction} (edit : isEdit a = true)
    (not_remapped : ∀ table column mapping, a ≠ .remapEnumValues table column mapping)
    (not_added : ∀ table column fillWith, a ≠ .addColumn table column fillWith) {t : TableDef}
    (ok : (tableEdit a t).error = none) :
    tableEdit (a.withPrefix pre) (movedTable pre t) = .ok (movedTable pre (tableEdit a t).state) ↔
      PrefixableOn pre t a := by
  rw [with_prefix_eq nonempty]
  cases a with
  | createTable table columns constraints => simp [isEdit] at edit
  | deleteTable table => simp [isEdit] at edit
  | renameTable old new => simp [isEdit, isLocal] at edit
  | rawSql sql => simp [isEdit, isLocal] at edit
  | dataMigration sql description => simp [isEdit, isLocal] at edit
  | addColumn table column fillWith => exact absurd rfl (not_added table column fillWith)
  | remapEnumValues table column mapping => exact absurd rfl (not_remapped table column mapping)
  | renameColumn table old new =>
    simp only [prefixMigrationAction, prefixColumnOrConstraintAction, prefixed_spelling, tableEdit,
      renameColumnIn, PrefixableOn, iff_true] at ok ⊢
    split at ok
    · rename_i present
      rw [if_pos present, if_pos (show old ∈ (movedTable pre t).columnNames from present)]
      simp [movedTable, Outcome.ok, renamed_prefixed]
    · simp [Outcome.fail] at ok
  | deleteColumn table column =>
    simp only [prefixMigrationAction, prefixColumnOrConstraintAction, prefixed_spelling, tableEdit,
      deleteColumnFrom, PrefixableOn, iff_true] at ok ⊢
    split at ok
    · simp [Outcome.fail] at ok
    · rename_i shorter
      rw [if_neg shorter, if_neg (show ¬ ((movedTable pre t).columns.filter
        (·.name ≠ column)).length = (movedTable pre t).columns.length from shorter)]
      simp only [movedTable, Outcome.ok, dropColumnFromConstraints, List.filterMap_map,
        Function.comp_def, dropped_prefixed, List.map_filterMap]
  | addConstraint table constraint =>
    simp only [prefixMigrationAction, prefixColumnOrConstraintAction, prefixRemainingAction,
      prefixed_spelling, tableEdit, addConstraintTo, PrefixableOn, iff_true, movedTable, mem_prefixed]
    split <;> simp [Outcome.ok]
  | removeConstraint table constraint =>
    simp only [prefixMigrationAction, prefixColumnOrConstraintAction, prefixRemainingAction,
      prefixed_spelling, tableEdit, removeConstraintFrom, PrefixableOn, cleared_prefixed]
    have kept : (t.constraints.map (·.withPrefix pre)).filter (· ≠ constraint.withPrefix pre) =
        (t.constraints.filter (· ≠ constraint)).map (·.withPrefix pre) := by
      simp [List.filter_map, Function.comp_def, constraint_prefix_inj]
    simp only [movedTable, kept, Outcome.ok, Outcome.mk.injEq, TableDef.mk.injEq, and_true, true_and]
    exact Iff.rfl
  | replaceConstraint table old new =>
    simp only [prefixMigrationAction, prefixColumnOrConstraintAction, prefixRemainingAction,
      prefixed_spelling, tableEdit, replaceConstraintIn, PrefixableOn, cleared_prefixed] at ok ⊢
    split at ok
    · rename_i held
      have moved : old.withPrefix pre ∈ (movedTable pre t).constraints := (mem_prefixed pre).mpr held
      rw [if_pos held, if_pos moved]
      simp only [movedTable, replaced_prefixed, Outcome.ok, Outcome.mk.injEq, TableDef.mk.injEq,
        and_true, true_and]
      exact Iff.rfl
    · simp [Outcome.fail] at ok
  | _ => exact iff_of_true (by
      simp only [prefixMigrationAction, prefixColumnOrConstraintAction, prefixRemainingAction,
        prefixed_spelling]
      exact on_column_moved ok) trivial

theorem edit_prefixed {a : MigrationAction} (edit : isEdit a = true)
    (not_remapped : ∀ table column mapping, a ≠ .remapEnumValues table column mapping)
    {t : TableDef} (refs : NoReferences t.columns) (ok : (tableEdit a t).error = none) :
    tableEdit (a.withPrefix pre) (prefixedTable pre t) =
        .ok (prefixedTable pre (tableEdit a t).state) ↔ PrefixableOn pre t a := by
  rw [← (prefixed_table_iff nonempty t).mpr refs]
  by_cases added : ∃ table column fillWith, a = .addColumn table column fillWith
  · obtain ⟨table, column, fillWith, rfl⟩ := added
    rw [with_prefix_eq nonempty]
    simp only [prefixMigrationAction, prefixColumnOrConstraintAction, prefixed_spelling]
    exact added_prefixed nonempty refs ok
  · have not_added : ∀ table column fillWith, a ≠ .addColumn table column fillWith := by
      intro table column fillWith same
      exact added ⟨table, column, fillWith, same⟩
    have left : NoReferences (tableEdit a t).state.columns := by
      apply edit_columns no_reference_closed refs
      have none_new : newColumns a = [] := by
        cases a with
        | createTable table columns constraints => simp [isEdit] at edit
        | addColumn table column fillWith => exact absurd rfl (not_added table column fillWith)
        | _ => rfl
      simp [none_new]
    rw [← (prefixed_table_iff nonempty _).mpr left]
    exact edit_moved nonempty edit not_remapped not_added ok

/-! The schema around the table -/

omit nonempty in
theorem prefixed_name (t : TableDef) : (prefixedTable pre t).name = pre ++ t.name := rfl

omit nonempty in
theorem prefixed_schema_split {before after : List TableDef} {t : TableDef} {name : String}
    (named : t.name = name) (others : ∀ u ∈ before, u.name ≠ name)
    (f : TableDef → Outcome TableDef) :
    onTable (pre ++ name) f (prefixedSchema pre (before ++ t :: after)) =
      ⟨prefixedSchema pre before ++ (f (prefixedTable pre t)).state :: prefixedSchema pre after,
        (f (prefixedTable pre t)).error⟩ := by
  unfold prefixedSchema
  rw [List.map_append, List.map_cons]
  apply on_table_split
  · rw [prefixed_name, named]
  · intro u mem
    obtain ⟨v, here, rfl⟩ := List.mem_map.mp mem
    rw [prefixed_name, ne_eq, String.append_right_inj]
    exact others v here

theorem edit_step_iff {a : MigrationAction} (edit : isEdit a = true)
    (not_remapped : ∀ table column mapping, a ≠ .remapEnumValues table column mapping)
    {schema : Schema} (refs : ∀ t ∈ schema, NoReferences t.columns)
    (ok : (applyAction schema a).error = none) :
    applyAction (prefixedSchema pre schema) (a.withPrefix pre) =
        .ok (prefixedSchema pre (applyAction schema a).state) ↔
      ∀ t, tableAt schema (actionTable a) = some t → PrefixableOn pre t a := by
  have edit' : isEdit (a.withPrefix pre) = true := by
    rw [with_prefix_eq nonempty]
    cases a <;> first | rfl | simp [isEdit, isLocal] at edit
  have moved : actionTable (a.withPrefix pre) = pre ++ actionTable a := by
    rw [with_prefix_eq nonempty]
    cases a with
    | remapEnumValues table column mapping => exact absurd rfl (not_remapped table column mapping)
    | createTable table columns constraints => simp [isEdit] at edit
    | deleteTable table => simp [isEdit] at edit
    | renameTable old new => simp [isEdit, isLocal] at edit
    | rawSql sql => simp [isEdit, isLocal] at edit
    | dataMigration sql description => simp [isEdit, isLocal] at edit
    | _ => simp [prefixMigrationAction, prefixColumnOrConstraintAction, prefixRemainingAction,
        prefixed_spelling, actionTable, MigrationAction.tableName]
  rw [edit_applies edit] at ok ⊢
  rw [edit_applies edit', moved]
  cases found : tableAt schema (actionTable a) with
  | none => simp [on_table_missing found, Outcome.fail] at ok
  | some t =>
    obtain ⟨named, before, after, rfl, others⟩ := table_at_split found
    rw [on_table_split named others] at ok ⊢
    rw [prefixed_schema_split named others]
    have own := edit_prefixed nonempty edit not_remapped (refs t (by simp)) ok
    simp only [Option.some.injEq, forall_eq', ← own]
    simp only [Outcome.ok, Outcome.mk.injEq, prefixedSchema, List.map_append, List.map_cons,
      List.append_cancel_left_eq, List.cons.injEq, and_true]
    cases tableEdit (a.withPrefix pre) (prefixedTable pre t)
    simp

omit nonempty in
theorem any_prefixed (schema : Schema) (name : String) :
    (prefixedSchema pre schema).any (·.name = pre ++ name) = schema.any (·.name = name) := by
  simp [prefixedSchema, prefixed_name, Function.comp_def, String.append_right_inj]

theorem create_step_iff {schema : Schema} {table : String} {columns : List ColumnDef}
    {constraints : List TableConstraint}
    (ok : (createTable schema table columns constraints).error = none) :
    createTable (prefixedSchema pre schema) (pre ++ table) columns (constraints.map (·.withPrefix pre)) =
        .ok (prefixedSchema pre (createTable schema table columns constraints).state) ↔
      NoReferences columns := by
  unfold createTable at ok ⊢
  rw [any_prefixed]
  split at ok
  · simp [Outcome.fail] at ok
  · rename_i free
    rw [if_neg free, if_neg free]
    cases normal : (TableDef.mk table none columns constraints).normalize with
    | error e => simp [normal, Outcome.fail] at ok
    | ok t =>
      obtain rfl := normalize_value normal
      have accepted := normalizable_of_normalize normal
      have moved := normalize_of_normalizable
        (t := movedTable pre (TableDef.mk table none columns constraints)) accepted
      simp only [movedTable] at moved
      rw [moved]
      simp only [Outcome.ok, Outcome.mk.injEq, prefixedSchema, List.map_append, List.map_singleton,
        List.append_cancel_left_eq, List.cons.injEq, and_true]
      constructor
      · intro same
        exact (prefixed_columns_fixed nonempty).mp (congrArg TableDef.columns same)
      · intro none_declared
        have whole := @promoted_moved pre (TableDef.mk table none columns constraints) none_declared
        rw [← (prefixed_table_iff nonempty _).mpr none_declared]
        simp only [movedTable, TableDef.mk.injEq, true_and] at whole ⊢
        exact whole

omit nonempty in
theorem delete_step {schema : Schema} {table : String}
    (ok : (deleteTable schema table).error = none) :
    deleteTable (prefixedSchema pre schema) (pre ++ table) =
      .ok (prefixedSchema pre (deleteTable schema table).state) := by
  have kept : (prefixedSchema pre schema).filter (·.name ≠ pre ++ table) =
      prefixedSchema pre (schema.filter (·.name ≠ table)) := by
    simp [prefixedSchema, List.filter_map, Function.comp_def, prefixed_name, String.append_right_inj]
  simp only [deleteTable] at ok ⊢
  rw [kept]
  split at ok
  · simp [Outcome.fail] at ok
  · rename_i shorter
    rw [if_neg shorter, if_neg (by simpa [prefixedSchema] using shorter)]
    rfl

omit nonempty in
theorem rename_step {schema : Schema} {old new : String}
    (ok : (renameTable schema old new).error = none) :
    renameTable (prefixedSchema pre schema) (pre ++ old) (pre ++ new) =
      .ok (prefixedSchema pre (renameTable schema old new).state) := by
  unfold renameTable at ok ⊢
  rw [any_prefixed]
  split at ok
  · simp [Outcome.fail] at ok
  · rename_i free
    rw [if_neg free, if_neg free]
    cases found : tableAt schema old with
    | none => simp [on_table_missing found, Outcome.fail] at ok
    | some t =>
      obtain ⟨named, before, after, rfl, others⟩ := table_at_split found
      rw [on_table_split named others, prefixed_schema_split named others]
      simp only [Outcome.ok, Outcome.mk.injEq, and_true]
      simp [prefixedSchema, prefixedTable, Function.comp_def, retargeted_prefixed]

/-! A remapping keeps the name of its table -/

omit nonempty in
theorem remap_applies (schema : Schema) (table column : String) (mapping : List (Int × Int)) :
    applyAction schema (.remapEnumValues table column mapping) = onTable table
      (onColumn table column fun c => { c with type := remapType mapping c.type }) schema := rfl

omit nonempty in
theorem remapped_state {table column : String} {mapping : List (Int × Int)} {t : TableDef}
    (present : column ∈ t.columnNames) :
    onColumn table column (fun c => { c with type := remapType mapping c.type }) t =
      .ok { t with columns := mapFirstColumn column (fun c =>
        { c with type := remapType mapping c.type }) t.columns } := if_pos present

omit nonempty in
theorem table_at_prefixed (schema : Schema) (name : String) :
    tableAt (prefixedSchema pre schema) (pre ++ name) =
      (tableAt schema name).map (prefixedTable pre) := by
  have moved : ((fun t : TableDef => decide (t.name = pre ++ name)) ∘ prefixedTable pre) =
      fun t => decide (t.name = name) := by
    funext t
    simp only [Function.comp_apply, prefixed_name, String.append_right_inj]
  rw [tableAt, prefixedSchema, List.find?_map, moved]
  rfl

omit nonempty in
theorem on_table_idle {schema : Schema} {name : String} {t : TableDef}
    (found : tableAt schema name = some t) {f : TableDef → Outcome TableDef} (idle : f t = .ok t) :
    onTable name f schema = .ok schema := by
  obtain ⟨named, before, after, rfl, others⟩ := table_at_split found
  rw [on_table_split named others, idle]
  rfl

omit nonempty in
theorem on_column_idle {table column : String} {f : ColumnDef → ColumnDef} {t : TableDef} :
    onColumn table column f t = .ok t ↔
      column ∈ t.columnNames ∧ mapFirstColumn column f t.columns = t.columns := by
  unfold onColumn
  split
  · rename_i present
    simp only [Outcome.ok, Outcome.mk.injEq, and_true, present, true_and]
    constructor
    · intro same
      exact congrArg TableDef.columns same
    · intro same
      rw [same]
  · rename_i absent
    simp [Outcome.ok, Outcome.fail, absent]

omit nonempty in
theorem on_column_name (table column : String) (f : ColumnDef → ColumnDef) (t : TableDef) :
    (onColumn table column f t).state.name = t.name := by
  unfold onColumn
  split <;> rfl

theorem remap_step_iff {schema : Schema} {table column : String} {mapping : List (Int × Int)}
    (refs : ∀ t ∈ schema, NoReferences t.columns)
    (ok : (applyAction schema (.remapEnumValues table column mapping)).error = none) :
    applyAction (prefixedSchema pre schema) (.remapEnumValues table column mapping) =
        .ok (prefixedSchema pre (applyAction schema (.remapEnumValues table column mapping)).state) ↔
      Prefixable pre schema (.remapEnumValues table column mapping) := by
  rw [remap_applies] at ok ⊢
  rw [remap_applies]
  have f_name := on_column_name table column fun c => { c with type := remapType mapping c.type }
  have f_idle : ∀ v, onColumn table column (fun c => { c with type := remapType mapping c.type }) v =
      .ok v ↔ column ∈ v.columnNames ∧ RemapIdle mapping column v.columns := fun v => on_column_idle
  have f_state : ∀ v : TableDef, column ∈ v.columnNames → onColumn table column
      (fun c => { c with type := remapType mapping c.type }) v = _ := fun v => remapped_state
  have f_present : ∀ v, (onColumn table column (fun c =>
      { c with type := remapType mapping c.type }) v).error = none → column ∈ v.columnNames := by
    intro v done
    by_contra absent
    simp [onColumn, absent, Outcome.fail] at done
  generalize onColumn table column (fun c => { c with type := remapType mapping c.type }) = f at *
  cases found : tableAt schema table with
  | none => simp [on_table_missing found, Outcome.fail] at ok
  | some t =>
    obtain ⟨mem, named⟩ := table_at_name found
    have moved : ∀ u ∈ schema, prefixedTable pre u = movedTable pre u := fun u here =>
      ((prefixed_table_iff nonempty u).mpr (refs u here)).symm
    have present : column ∈ t.columnNames := by
      rw [on_table_error found] at ok
      exact f_present t ok
    constructor
    · intro same
      have left := congrArg (fun r : Outcome Schema => tableAt r.state) same
      have replayed := on_table_at found ((f_name t).trans named)
      cases found' : tableAt (prefixedSchema pre schema) table with
      | none => simp [on_table_missing found', Outcome.fail, Outcome.ok] at same
      | some v =>
        obtain ⟨mem', named'⟩ := table_at_name found'
        obtain ⟨w, _, rfl⟩ := List.mem_map.mp mem'
        obtain rfl : pre ++ w.name = table := named'
        have there := @table_at_prefixed pre schema w.name
        rw [found'] at there
        obtain ⟨u, here, twin⟩ := Option.map_eq_some_iff.mp there.symm
        obtain ⟨u_mem, u_named⟩ := table_at_name here
        rw [on_table_at found' (f_name _)] at left
        have apart : ∀ name, pre ++ name ≠ name := fun name same =>
          nonempty (String.append_eq_right_iff.mp same)
        refine ⟨⟨u, u_named ▸ here, by rw [u_named], ?_⟩, ?_⟩
        · have kept := congrFun left (pre ++ w.name)
          rw [Function.update_self, Outcome.ok, table_at_prefixed, replayed,
            Function.update_of_ne (apart w.name).symm, here, Option.map_some, twin] at kept
          have error := congrArg Outcome.error same
          rw [on_table_error found'] at error
          have idle : f (prefixedTable pre w) = .ok (prefixedTable pre w) := by
            cases whole : f (prefixedTable pre w)
            rw [whole] at kept error
            simp only [Outcome.ok, Option.some.injEq] at kept error ⊢
            rw [kept, error]
          rw [← twin, moved u u_mem] at idle
          exact (f_idle (movedTable pre u)).mp idle
        · intro t' found''
          obtain rfl := Option.some.inj (found.symm.trans found'')
          have kept := congrFun left (pre ++ (pre ++ w.name))
          rw [Function.update_of_ne (apart _), Outcome.ok, table_at_prefixed, table_at_prefixed,
            replayed, Function.update_self, found, Option.map_some, Option.map_some] at kept
          have columns : NoReferences (f t).state.columns := by
            rw [f_state t present]
            refine mapped_first_all ?_ column (refs t mem)
            exact fun c held => held
          rw [moved t mem, ← (prefixed_table_iff nonempty _).mpr columns] at kept
          have same_columns := congrArg TableDef.columns (Option.some.inj kept)
          rw [f_state t present] at same_columns
          exact same_columns.symm
    · rintro ⟨⟨u, there, rfl, own, idle⟩, others⟩
      have idle_t : f t = .ok t := (f_idle t).mpr ⟨present, others t found⟩
      have there' := @table_at_prefixed pre schema u.name
      rw [there, Option.map_some] at there'
      have idle_u : f (prefixedTable pre u) = .ok (prefixedTable pre u) := by
        rw [moved u (table_at_name there).1]
        exact (f_idle _).mpr ⟨own, idle⟩
      rw [on_table_idle found idle_t, on_table_idle there' idle_u]
      rfl

/-- A step commutes with the prefix exactly under the condition. -/
theorem prefixed_step_iff {schema : Schema} (refs : ∀ t ∈ schema, NoReferences t.columns)
    {a : MigrationAction} (ok : (applyAction schema a).error = none) :
    applyAction (prefixedSchema pre schema) (a.withPrefix pre) =
        .ok (prefixedSchema pre (applyAction schema a).state) ↔ Prefixable pre schema a := by
  have edits : isEdit a = true →
      (∀ table column mapping, a ≠ .remapEnumValues table column mapping) →
      ((∀ t, tableAt schema (actionTable a) = some t → PrefixableOn pre t a) ↔
        Prefixable pre schema a) → (applyAction (prefixedSchema pre schema) (a.withPrefix pre) =
          .ok (prefixedSchema pre (applyAction schema a).state) ↔ Prefixable pre schema a) :=
    fun edit other local_iff => (edit_step_iff nonempty edit other refs ok).trans local_iff
  cases a with
  | createTable table columns constraints =>
    rw [with_prefix_eq nonempty]
    simp only [prefixMigrationAction, prefixed_spelling]
    exact create_step_iff nonempty ok
  | deleteTable table =>
    rw [with_prefix_eq nonempty]
    simp only [prefixMigrationAction, prefixed_spelling]
    exact iff_of_true (delete_step ok) trivial
  | renameTable old new =>
    rw [with_prefix_eq nonempty]
    simp only [prefixMigrationAction, prefixed_spelling]
    exact iff_of_true (rename_step ok) trivial
  | rawSql sql =>
    rw [with_prefix_eq nonempty]
    exact iff_of_true rfl trivial
  | dataMigration sql description =>
    rw [with_prefix_eq nonempty]
    exact iff_of_true rfl trivial
  | remapEnumValues table column mapping =>
    rw [with_prefix_eq nonempty]
    exact remap_step_iff nonempty refs ok
  | addColumn table column fillWith =>
    apply edits rfl (by simp)
    have found : ∃ t, tableAt schema table = some t := by
      by_contra missing
      have absent : tableAt schema table = none := by simpa [Option.eq_none_iff_forall_ne_some] using missing
      rw [edit_applies rfl] at ok
      exact on_table_absent absent _ ok
    obtain ⟨t, here⟩ := found
    exact ⟨fun all => all t here, fun own _ _ => own⟩
  | removeConstraint table constraint => exact edits rfl (by simp) Iff.rfl
  | replaceConstraint table old new => exact edits rfl (by simp) Iff.rfl
  | _ => exact edits rfl (by simp) ⟨fun _ => trivial, fun _ _ _ => trivial⟩

omit nonempty in
theorem prefixable_references {schema : Schema} (refs : ∀ t ∈ schema, NoReferences t.columns)
    {a : MigrationAction} (meets : Prefixable pre schema a) :
    ∀ t ∈ (applyAction schema a).state, NoReferences t.columns := by
  apply action_columns no_reference_closed refs
  cases a with
  | createTable table columns constraints => exact meets
  | addColumn table column fillWith => exact List.forall_mem_singleton.mpr meets
  | _ => simp [newColumns]

theorem prefixed_run {actions : List MigrationAction} {schema s' : Schema}
    (refs : ∀ t ∈ schema, NoReferences t.columns) (along : Along (Prefixable pre) schema actions)
    (ok : applyActions schema actions = .ok s') :
    applyActions (prefixedSchema pre schema) (actions.map (·.withPrefix pre)) =
      .ok (prefixedSchema pre s') := by
  induction actions generalizing schema with
  | nil =>
    obtain rfl := Except.ok.inj ok
    rfl
  | cons a actions ih =>
    obtain ⟨here, later⟩ := along
    rw [apply_actions_cons] at ok
    rw [List.map_cons, apply_actions_cons]
    cases applied : (applyAction schema a).toExcept with
    | error e =>
      rw [applied] at ok
      cases ok
    | ok next =>
      obtain ⟨done, rfl⟩ := to_except_ok.mp applied
      rw [applied] at ok
      rw [(prefixed_step_iff nonempty refs done).mpr here]
      exact ih (prefixable_references refs here) later ok

end Step

/-- Under the condition a step, and with it every history, replays the same under a prefix. -/
theorem with_prefix_replays {pre : String} (nonempty : pre ≠ "") (schema : Schema) :
    ((∀ t ∈ schema, NoReferences t.columns) → ∀ a, (applyAction schema a).error = none →
      (applyAction (prefixedSchema pre schema) (a.withPrefix pre) =
        .ok (prefixedSchema pre (applyAction schema a).state) ↔ Prefixable pre schema a)) ∧
    ∀ plans, Along (Prefixable pre) [] (plans.flatMap MigrationPlan.actions) →
      schemaFromPlans plans = .ok schema →
      schemaFromPlans (plans.map (·.withPrefix pre)) = .ok (prefixedSchema pre schema) := by
  constructor
  · intro refs a ok
    exact prefixed_step_iff nonempty refs ok
  · intro plans along replayed
    rw [schema_from_plans_actions] at replayed ⊢
    have moved : (plans.map (·.withPrefix pre)).flatMap (·.actions) =
        (plans.flatMap (·.actions)).map (·.withPrefix pre) := by
      rw [List.flatMap_map, List.map_flatMap]
      apply List.flatMap_congr
      intro plan _
      rw [MigrationPlan.withPrefix, if_neg nonempty]
    rw [moved]
    exact prefixed_run nonempty (by simp) along replayed

/-! Members of a team, under the prefix of a tenant -/

def teamColumn : ColumnDef := .new "team_id" (.simple .integer) false

def memberPlans (columns : List ColumnDef) (constraints : List TableConstraint) :
    List MigrationPlan :=
  [⟨"", none, none, 1, [.createTable "team" [.new "id" (.simple .integer) false] [],
    .createTable "member" columns constraints]⟩]

def memberKey (refTable : String) : TableConstraint :=
  .foreignKey none ["team_id"] refTable ["id"] none none .default

theorem member_replays_prefixed :
    schemaFromPlans ((memberPlans [teamColumn] [memberKey "team"]).map (·.withPrefix "acme_")) =
      .ok (prefixedSchema "acme_" [⟨"team", none, [.new "id" (.simple .integer) false], []⟩,
        ⟨"member", none, [teamColumn], [memberKey "team"]⟩]) := by
  apply (with_prefix_replays (by decide) _).2 _ _ (by decide)
  exact ⟨List.forall_mem_singleton.mpr rfl, List.forall_mem_singleton.mpr rfl, trivial⟩

/-- The inline reference of a column payload is promoted without the prefix. -/
theorem inline_reference_unprefixed :
    ¬ ∀ plans pre schema, pre ≠ "" → schemaFromPlans plans = .ok schema →
      schemaFromPlans (plans.map (·.withPrefix pre)) = .ok (prefixedSchema pre schema) := by
  intro commutes
  have prefixed := commutes (memberPlans [{ teamColumn with foreignKey := some (.string "team.id") }] [])
    "acme_" [⟨"team", none, [.new "id" (.simple .integer) false], []⟩,
      ⟨"member", none, [{ teamColumn with foreignKey := some (.string "team.id") }],
        [memberKey "team"]⟩] (by decide) (by decide)
  revert prefixed
  decide

end Vespertide
