import Vespertide.ActionSteps
import Vespertide.ColumnInvariants
import Vespertide.WellFormedReplay

/-!
What a schema says of its columns, apart from their constraints: type, nullability,
default and comment under the names of the table and the column. Every action acts
on this view alone, whatever constraints and inline declarations there are.
-/
namespace Vespertide

/-- A default is seen as the text that stands in the SQL. -/
structure ColumnAttributes where
  type : ColumnType
  nullable : Bool
  default : Option String
  comment : Option String
  deriving DecidableEq, Repr

def ColumnDef.attributes (c : ColumnDef) : ColumnAttributes :=
  ⟨c.type, c.nullable, c.default.map (·.toSql), c.comment⟩

abbrev TableView := String → Option ColumnAttributes
abbrev SchemaView := String → Option TableView

def columnsView (columns : List ColumnDef) : TableView := fun column =>
  (columns.find? (·.name = column)).map ColumnDef.attributes

def schemaView (schema : Schema) : SchemaView := fun table =>
  (tableAt schema table).map fun t => columnsView t.columns

/-! The machine -/

def onTableView (table : String) (f : TableView → TableView) (m : SchemaView) : SchemaView :=
  Function.update m table ((m table).map f)

def onColumnView (column : String) (f : ColumnAttributes → ColumnAttributes) (v : TableView) :
    TableView := Function.update v column ((v column).map f)

def renameView (old new : String) (v : TableView) : TableView :=
  Function.update (Function.update v new (v old)) old none

def defaultText (text : String) : String := (DefaultValue.string text).toSql

def viewStep (m : SchemaView) : MigrationAction → SchemaView
  | .createTable table columns _ => Function.update m table (some (columnsView columns))
  | .deleteTable table => Function.update m table none
  | .renameTable old new => Function.update (Function.update m new (m old)) old none
  | .addColumn table column _ =>
      onTableView table (fun v => Function.update v column.name (some column.attributes)) m
  | .renameColumn table old new => onTableView table (renameView old new) m
  | .deleteColumn table column => onTableView table (fun v => Function.update v column none) m
  | .modifyColumnType table column newType _ _ _ =>
      onTableView table (onColumnView column fun c => { c with type := newType }) m
  | .modifyColumnNullable table column nullable _ _ =>
      onTableView table (onColumnView column fun c => { c with nullable }) m
  | .modifyColumnDefault table column newDefault _ =>
      onTableView table (onColumnView column fun c =>
        { c with default := newDefault.map defaultText }) m
  | .modifyColumnComment table column newComment =>
      onTableView table (onColumnView column fun c => { c with comment := newComment }) m
  | .remapEnumValues table column mapping =>
      onTableView table (onColumnView column fun c =>
        { c with type := remapType mapping c.type }) m
  | _ => m

def viewRun (actions : List MigrationAction) (m : SchemaView) : SchemaView :=
  actions.foldl viewStep m

@[simp] theorem view_run_nil (m : SchemaView) : viewRun [] m = m := rfl

@[simp] theorem view_run_cons (a : MigrationAction) (rest : List MigrationAction) (m : SchemaView) :
    viewRun (a :: rest) m = viewRun rest (viewStep m a) := rfl

/-! Columns -/

@[simp] theorem columns_view_nil (k : String) : columnsView [] k = none := rfl

@[simp] theorem columns_view_cons (c : ColumnDef) (rest : List ColumnDef) (k : String) :
    columnsView (c :: rest) k = if c.name = k then some c.attributes else columnsView rest k := by
  unfold columnsView
  rw [List.find?_cons]
  by_cases here : c.name = k <;> simp [here]

theorem columns_view_none {columns : List ColumnDef} {k : String} :
    columnsView columns k = none ↔ ∀ c ∈ columns, c.name ≠ k := by
  simp [columnsView, List.find?_eq_none]

theorem columns_view_mapped {columns : List ColumnDef} {column : String}
    {f : ColumnDef → ColumnDef} {g : ColumnAttributes → ColumnAttributes}
    (named : ∀ c, (f c).name = c.name) (sees : ∀ c, (f c).attributes = g c.attributes) :
    columnsView (mapFirstColumn column f columns) =
      onColumnView column g (columnsView columns) := by
  funext k
  induction columns with
  | nil => simp [mapFirstColumn, onColumnView, Function.update_apply]
  | cons c rest ih =>
    simp only [onColumnView, Function.update_apply] at ih ⊢
    by_cases here : c.name = column
    · by_cases own : k = column
      · simp [mapFirstColumn, here, own, named, sees]
      · have other : ¬ column = k := fun same => own same.symm
        simp [mapFirstColumn, here, own, named, other]
    · by_cases own : k = column
      · subst own
        simpa [mapFirstColumn, here] using ih
      · simp only [own, if_false] at ih
        simp [mapFirstColumn, here, own, ih]

theorem columns_view_appended {columns : List ColumnDef} {c : ColumnDef}
    (fresh : ∀ d ∈ columns, d.name ≠ c.name) : columnsView (columns ++ [c]) =
      Function.update (columnsView columns) c.name (some c.attributes) := by
  funext k
  induction columns with
  | nil => simp [Function.update_apply, eq_comm]
  | cons d rest ih =>
    obtain ⟨apart, later⟩ := List.forall_mem_cons.mp fresh
    rw [List.cons_append, columns_view_cons, ih later]
    by_cases own : k = c.name
    · subst own
      simp [apart]
    · simp [own]

theorem columns_view_filtered (columns : List ColumnDef) (column : String) :
    columnsView (columns.filter (·.name ≠ column)) =
      Function.update (columnsView columns) column none := by
  funext k
  induction columns with
  | nil => simp [Function.update_apply]
  | cons c rest ih =>
    simp only [Function.update_apply] at ih ⊢
    by_cases here : c.name = column
    · by_cases own : k = column
      · simpa [here, own] using ih
      · have other : ¬ column = k := fun same => own same.symm
        simpa [here, own, other] using ih
    · by_cases own : k = column
      · subst own
        simpa [here] using ih
      · simp only [own, if_false] at ih ⊢
        rw [List.filter_cons_of_pos (by simpa using here), columns_view_cons, columns_view_cons, ih]

theorem columns_view_renamed {columns : List ColumnDef} {old new : String}
    (nodup : (columns.map (·.name)).Nodup) (fresh : new ∉ columns.map (·.name))
    (apart : new ≠ old) :
    columnsView (mapFirstColumn old (fun c => { c with name := new }) columns) =
      renameView old new (columnsView columns) := by
  funext k
  induction columns with
  | nil => simp [mapFirstColumn, renameView, Function.update_apply]
  | cons c rest ih =>
    obtain ⟨unique, tail⟩ := List.nodup_cons.mp nodup
    simp only [List.map_cons, List.mem_cons, not_or] at fresh
    have other_name : ¬ c.name = new := fun same => fresh.1 same.symm
    have later := ih tail fresh.2
    simp only [renameView, Function.update_apply] at later ⊢
    by_cases here : c.name = old
    · have old_gone : columnsView rest old = none := columns_view_none.mpr fun d mem same =>
        unique (List.mem_map.mpr ⟨d, mem, same.trans here.symm⟩)
      by_cases is_old : k = old
      · simp [mapFirstColumn, here, is_old, apart, old_gone]
      · by_cases is_new : k = new
        · simp [mapFirstColumn, here, is_new, apart, ColumnDef.attributes]
        · have not_new : ¬ new = k := fun same => is_new same.symm
          have not_old : ¬ old = k := fun same => is_old same.symm
          simp [mapFirstColumn, here, is_old, is_new, not_new, not_old]
    · by_cases is_old : k = old
      · simp only [is_old, if_true] at later ⊢
        simp [mapFirstColumn, here, later]
      · by_cases is_new : k = new
        · simp only [is_new, apart, if_false, if_true] at later ⊢
          simp [mapFirstColumn, here, other_name, later]
        · simp only [is_old, is_new, if_false] at later ⊢
          simp [mapFirstColumn, here, later]

theorem cleared_view (table : String) (constraint : TableConstraint) (columns : List ColumnDef) :
    columnsView (clearInlineConstraintFields table constraint columns) = columnsView columns := by
  funext k
  have sees : ∀ cols : List ColumnDef, columnsView (cols.map ColumnDef.stripInline) k =
      columnsView cols k := by
    intro cols
    induction cols with
    | nil => rfl
    | cons c rest ih => simp [ih, ColumnDef.stripInline, ColumnDef.attributes]
  rw [← sees, cleared_attributes, sees]

/-! Tables -/

def NewNamesFree (schema : Schema) : MigrationAction → Prop
  | .renameColumn table _ new => ∀ t, tableAt schema table = some t →
      t.columnNames.Nodup ∧ new ∉ t.columnNames
  | _ => True

theorem step_table_missing {a : MigrationAction} (edit : isEdit a = true) :
    stepTable a none = none := by
  cases a <;> first | rfl | simp [isEdit] at edit

theorem edit_view {a : MigrationAction} {t u : TableDef} {m : SchemaView}
    (edit : isEdit a = true) (step : editStep a t = some u)
    (free : ∀ table old new, a = .renameColumn table old new →
      t.columnNames.Nodup ∧ new ∉ t.columnNames)
    (seen : m (actionTable a) = some (columnsView t.columns)) :
    viewStep m a = Function.update m (actionTable a) (some (columnsView u.columns)) := by
  have onto : ∀ table column (f : ColumnDef → ColumnDef) (g : ColumnAttributes → ColumnAttributes),
      (∀ c, (f c).name = c.name) → (∀ c, (f c).attributes = g c.attributes) →
      m table = some (columnsView t.columns) →
      (onColumn table column f t).toOption = some u →
      onTableView table (onColumnView column g) m =
        Function.update m table (some (columnsView u.columns)) := by
    intro table column f g named sees seen step
    obtain rfl := Outcome.to_option_state step
    unfold onColumn at step ⊢
    split at step
    · rename_i present
      simp [onTableView, seen, present, Outcome.ok, columns_view_mapped named sees]
    · cases step
  cases a with
  | addColumn table column fillWith =>
    simp only [editStep, tableEdit, addColumnTo] at step
    split at step
    · cases step
    · rename_i absent
      split at step
      · cases step
      · rename_i normal normalised
        obtain rfl := Outcome.to_option_state step
        obtain rfl := normalize_value normalised
        have fresh : ∀ c ∈ t.columns, c.name ≠ column.name := by simpa using absent
        simp only [actionTable, MigrationAction.tableName, Option.getD_some] at seen ⊢
        simp [viewStep, onTableView, seen, Outcome.ok, columns_view_appended fresh]
  | deleteColumn table column =>
    obtain rfl := Outcome.to_option_state step
    have columns : (tableEdit (.deleteColumn table column) t).state.columns =
        t.columns.filter (·.name ≠ column) := by
      simp only [tableEdit, deleteColumnFrom]
      split <;> rfl
    simp only [actionTable, MigrationAction.tableName, Option.getD_some] at seen ⊢
    simp only [viewStep, onTableView, seen, Option.map_some, columns, columns_view_filtered]
  | renameColumn table old new =>
    obtain ⟨nodup, fresh⟩ := free table old new rfl
    simp only [editStep, tableEdit, renameColumnIn] at step
    split at step
    · rename_i present
      obtain rfl := Outcome.to_option_state step
      have apart : new ≠ old := fun same => fresh (same ▸ present)
      simp only [actionTable, MigrationAction.tableName, Option.getD_some] at seen ⊢
      simp [viewStep, onTableView, seen, Outcome.ok, columns_view_renamed nodup fresh apart]
    · cases step
  | modifyColumnType table column newType fillWith strategy timezone =>
    exact onto table column (fun c => { c with type := newType }) _ (fun _ => rfl) (fun _ => rfl)
      seen step
  | modifyColumnNullable table column nullable fillWith deleteNullRows =>
    exact onto table column (fun c => { c with nullable }) _ (fun _ => rfl) (fun _ => rfl) seen step
  | modifyColumnDefault table column newDefault backfill =>
    refine onto table column (fun c => { c with default := newDefault.map .string }) _
      (fun _ => rfl) (fun c => ?_) seen step
    cases newDefault <;> rfl
  | modifyColumnComment table column newComment =>
    exact onto table column (fun c => { c with comment := newComment }) _ (fun _ => rfl)
      (fun _ => rfl) seen step
  | remapEnumValues table column mapping =>
    exact onto table column (fun c => { c with type := remapType mapping c.type }) _
      (fun _ => rfl) (fun _ => rfl) seen step
  | addConstraint table constraint =>
    obtain rfl := Outcome.to_option_state step
    have same : (tableEdit (.addConstraint table constraint) t).state.columns = t.columns := by
      simp only [tableEdit, addConstraintTo, Outcome.ok]
      split <;> rfl
    rw [same, ← seen, Function.update_eq_self]
    rfl
  | removeConstraint table constraint =>
    obtain rfl := Outcome.to_option_state step
    simp only [tableEdit, removeConstraintFrom, Outcome.ok, cleared_view]
    rw [← seen, Function.update_eq_self]
    rfl
  | replaceConstraint table old new =>
    obtain rfl := Outcome.to_option_state step
    have same : columnsView (tableEdit (.replaceConstraint table old new) t).state.columns =
        columnsView t.columns := by
      simp only [tableEdit, replaceConstraintIn]
      split
      · exact cleared_view table old t.columns
      · rfl
    rw [same, ← seen, Function.update_eq_self]
    rfl
  | _ => cases edit

@[simp] theorem schema_view_cons (t : TableDef) (rest : Schema) (k : String) :
    schemaView (t :: rest) k = if t.name = k then some (columnsView t.columns)
      else schemaView rest k := by
  unfold schemaView tableAt
  rw [List.find?_cons]
  by_cases here : t.name = k <;> simp [here]

theorem schema_view_none {schema : Schema} {k : String} :
    schemaView schema k = none ↔ ∀ t ∈ schema, t.name ≠ k := by
  rw [schemaView, Option.map_eq_none_iff, table_at_none]

theorem schema_view_constraints (f : TableDef → List TableConstraint) (schema : Schema) :
    schemaView (schema.map fun t => { t with constraints := f t }) = schemaView schema := by
  funext k
  induction schema with
  | nil => rfl
  | cons t rest ih => simp [ih]

theorem rename_table_view {schema s' : Schema} (names : TableNamesNodup schema) {old new : String}
    (ok : (renameTable schema old new).toExcept = .ok s') :
    schemaView s' = viewStep (schemaView schema) (.renameTable old new) := by
  simp only [renameTable] at ok
  split at ok
  · cases ok
  · rename_i untaken
    have free : ∀ t ∈ schema, t.name ≠ new := by simpa using untaken
    cases found : tableAt schema old with
    | none =>
      rw [on_table_missing found] at ok
      cases ok
    | some t =>
      obtain ⟨named, before, after, rfl, others⟩ := table_at_split found
      rw [on_table_split named others] at ok
      have renamed : s' = (before ++ { t with name := new } :: after).map fun u =>
          { u with constraints := u.constraints.map (retargetConstraint old new) } :=
        (Except.ok.inj ok).symm
      have apart : new ≠ old := fun same => free t (by simp) (named.trans same.symm)
      have gone : ∀ u ∈ after, u.name ≠ old := by
        intro u mem same
        simp only [TableNamesNodup, List.map_append, List.map_cons, List.nodup_append,
          List.nodup_cons] at names
        exact names.2.1.1 (List.mem_map.mpr ⟨u, mem, same.trans named.symm⟩)
      have own : schemaView (before ++ t :: after) old = some (columnsView t.columns) := by
        simp [schemaView, found]
      rw [renamed, schema_view_constraints]
      funext k
      simp only [viewStep, Function.update_apply, own]
      clear found own ok untaken names renamed
      induction before with
      | nil =>
        have none_after : schemaView after old = none := schema_view_none.mpr gone
        by_cases is_old : k = old
        · simp [is_old, apart, none_after]
        · by_cases is_new : k = new
          · simp [is_new, apart]
          · have not_new : ¬ new = k := fun same => is_new same.symm
            have not_old : ¬ old = k := fun same => is_old same.symm
            simp [named, is_old, is_new, not_new, not_old]
      | cons u rest ih =>
        obtain ⟨here, later⟩ := List.forall_mem_cons.mp others
        obtain ⟨other, free_rest⟩ := List.forall_mem_cons.mp free
        simp only [List.cons_append, schema_view_cons, ih later free_rest]
        by_cases is_old : k = old
        · simp [is_old, here]
        · by_cases is_new : k = new
          · simp [is_new, apart, other]
          · simp [is_old, is_new]

theorem action_view {schema s' : Schema} {a : MigrationAction} (names : TableNamesNodup schema)
    (free : NewNamesFree schema a) (ok : (applyAction schema a).toExcept = .ok s') :
    schemaView s' = viewStep (schemaView schema) a := by
  by_cases is_local : isLocal a = true
  · obtain ⟨t', stepped, updated⟩ := local_step names is_local ok
    have after : schemaView s' = Function.update (schemaView schema) (actionTable a)
        (t'.map fun t => columnsView t.columns) := by
      funext k
      by_cases own : k = actionTable a
      · simp [schemaView, updated, own]
      · simp [schemaView, updated, own]
    by_cases edit : isEdit a = true
    · cases here : tableAt schema (actionTable a) with
      | none =>
        rw [here, step_table_missing edit] at stepped
        cases stepped
      | some t =>
        rw [here, step_table_edit edit] at stepped
        obtain ⟨u, step, rfl⟩ := Option.map_eq_some_iff.mp stepped
        rw [after, edit_view edit step ?_ (by simp [schemaView, here])]
        · rfl
        · rintro table old new rfl
          exact free t here
    · cases a with
      | createTable table columns constraints =>
        simp only [stepTable] at stepped
        split at stepped
        · cases stepped
        · split at stepped
          · rename_i normal normalised
            obtain rfl := Option.some.inj stepped
            obtain rfl := normalize_value normalised
            exact after
          · cases stepped
      | deleteTable table =>
        simp only [stepTable] at stepped
        split at stepped
        · obtain rfl := Option.some.inj stepped
          exact after
        · cases stepped
      | _ => simp [isEdit, is_local] at edit
  · cases a with
    | renameTable old new => exact rename_table_view names ok
    | rawSql sql =>
      obtain rfl := Except.ok.inj ok
      rfl
    | dataMigration sql description =>
      obtain rfl := Except.ok.inj ok
      rfl
    | _ => simp [isLocal] at is_local

/-! Renamed columns with fresh names -/

def CreatesDistinct : MigrationAction → Prop
  | .createTable _ columns _ => (columns.map (·.name)).Nodup
  | _ => True

theorem free_step_distinct {schema : Schema} {a : MigrationAction}
    (distinct : DistinctColumns schema) (creates : CreatesDistinct a)
    (free : NewNamesFree schema a) : DistinctColumns (applyAction schema a).state := by
  by_cases renames : ∃ table old new, a = .renameColumn table old new
  · obtain ⟨table, old, new, rfl⟩ := renames
    rw [edit_applies rfl]
    cases found : tableAt schema table with
    | none =>
      have missing : tableAt schema (actionTable (.renameColumn table old new)) = none := found
      rw [on_table_missing missing]
      exact distinct
    | some t =>
      obtain ⟨nodup, fresh⟩ := free t found
      obtain ⟨named, before, after, rfl, others⟩ := table_at_split found
      have here : actionTable (.renameColumn table old new) = table := rfl
      rw [here, on_table_split named others]
      intro u mem
      simp only [List.mem_append, List.mem_cons] at mem
      rcases mem with earlier | rfl | later
      · exact distinct u (by simp [earlier])
      · simp only [tableEdit, renameColumnIn]
        split
        · rename_i present
          have renamed : (t.columnNames.map fun name => if name = old then new else name).Nodup :=
            (renamed_names_nodup nodup present).mpr (.inr fresh)
          rw [TableDef.columnNames, ← renamed_column_names old new nodup] at renamed
          exact renamed
        · exact nodup
      · exact distinct u (by simp [later])
  · refine action_distinct distinct ?_
    cases a with
    | createTable table columns constraints => exact creates
    | renameColumn table old new => exact absurd ⟨table, old, new, rfl⟩ renames
    | _ => trivial

theorem fresh_renames_view {schema s' : Schema} {actions : List MigrationAction}
    (names : TableNamesNodup schema) (distinct : DistinctColumns schema)
    (creates : ∀ a ∈ actions, CreatesDistinct a)
    (fresh : ∀ before table old new after,
      actions = before ++ .renameColumn table old new :: after →
        ∀ v, viewRun before (schemaView schema) table = some v → v new = none)
    (applied : applyActions schema actions = .ok s') :
    schemaView s' = viewRun actions (schemaView schema) := by
  induction actions generalizing schema with
  | nil =>
    obtain rfl := Except.ok.inj applied
    rfl
  | cons a rest ih =>
    obtain ⟨own, others⟩ := List.forall_mem_cons.mp creates
    have free : NewNamesFree schema a := by
      cases a with
      | renameColumn table old new =>
        intro t found
        have here := fresh [] table old new rest rfl (columnsView t.columns)
          (by simp [schemaView, found])
        refine ⟨distinct t (table_at_name found).1, fun mem => ?_⟩
        obtain ⟨c, listed, named⟩ := List.mem_map.mp mem
        exact columns_view_none.mp here c listed named
      | _ => trivial
    rw [apply_actions_cons] at applied
    cases stepped : (applyAction schema a).toExcept with
    | error e =>
      rw [stepped] at applied
      cases applied
    | ok next =>
      rw [stepped] at applied
      have view := action_view names free stepped
      obtain ⟨_, rfl⟩ := to_except_ok.mp stepped
      rw [ih (apply_action_nodup names stepped) (free_step_distinct distinct own free) others ?_
        applied, view, view_run_cons]
      intro before table old new after split v seen
      refine fresh (a :: before) table old new after (by rw [split, List.cons_append]) v ?_
      rwa [view_run_cons, ← view]

end Vespertide
