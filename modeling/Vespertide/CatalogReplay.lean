import Vespertide.Apply
import Vespertide.ColumnCatalog

/-!
Migrations against replay, on MySQL and SQLite. A server that takes the statements
of a history has the columns that replay gives: their names, types, nullability and
defaults.
-/
namespace Vespertide
open Registry

/-! One action -/

theorem entries_shape (backend : DatabaseBackend) (emitted : List TableConstraint)
    (columns : List ColumnDef) :
    (fun k => (entriesOf (columns.map (createTableColumn backend emitted)) k).map
      CatalogColumn.shape) = fun k => (columnsView columns k).map ColumnAttributes.shape := by
  funext k
  simp only [entriesOf, columnsView, List.find?_map, Option.map_map]
  congr 1
  funext c
  simp [createTableColumn, buildSeaColumnDef, SeaColumnDef.entry, CatalogColumn.shape,
    ColumnDef.attributes, ColumnAttributes.shape]

section Agreement
variable {α β : Type} {f : α → β} {g : ColumnAttributes → β}

theorem projection_kept {m : SchemaView} {table column : String}
    {changed : ColumnAttributes → ColumnAttributes} (same : ∀ c, g (changed c) = g c) :
    project g (onTableView table (onColumnView column changed) m) = project g m := by
  funext k
  by_cases own : k = table
  · subst own
    simp only [project, onTableView, Function.update_self, Option.map_map]
    congr 1
    funext v j
    by_cases here : j = column
    · subst here
      simp [onColumnView, same, Function.comp_def]
    · simp [onColumnView, here]
  · simp [project, onTableView, own]

theorem projected_table {db : Names String (Names String α)} {m : SchemaView}
    (agree : project f db = project g m) {table : String} {columns : Names String α}
    (there : db table = some columns) : ∃ v, m table = some v ∧
      (fun k => (v k).map g) = fun k => (columns k).map f := by
  have at_table := congrFun agree table
  rw [project, project, there, Option.map_some] at at_table
  obtain ⟨v, here, same⟩ := Option.map_eq_some_iff.mp at_table.symm
  exact ⟨v, here, same⟩

theorem projected_edit {m : SchemaView} {table column : String}
    {changed : ColumnAttributes → ColumnAttributes} {v : TableView} {c : ColumnAttributes}
    (here : m table = some v) (there : v column = some c) :
    project g (onTableView table (onColumnView column changed) m) =
      Function.update (project g m) table (some (Function.update (fun k => (v k).map g) column
        (some (g (changed c))))) := by
  rw [onTableView, project_update, here, Option.map_some, Option.map_some, onColumnView,
    project_column_update, there]
  rfl

end Agreement

theorem changed_shape {a : MigrationAction} {column : String}
    (changes : modifiedColumn a = some column) (c : ColumnDef) (m : SchemaView) {v : TableView}
    (here : m (actionTable a) = some v) (there : v column = some c.attributes) :
    project ColumnAttributes.shape (viewStep m a) =
      Function.update (project ColumnAttributes.shape m) (actionTable a)
        (some (Function.update (fun k => (v k).map ColumnAttributes.shape) column
          (some ((buildSeaColumnDef (changedColumn c a)).entry (sentComment a)).shape))) := by
  have texts : defaultText = fun text => (DefaultValue.string text).toSql := rfl
  cases a <;> cases changes <;> refine (projected_edit here there).trans ?_ <;>
    simp [changedColumn, buildSeaColumnDef, SeaColumnDef.entry, CatalogColumn.shape,
      ColumnDef.attributes, ColumnAttributes.shape, texts, Function.comp_def]

theorem stored_remap (mapping : List (Int × Int)) (ty : ColumnType) :
    (remapType mapping ty).stored = ty.stored := by
  unfold remapType
  split <;> rfl

theorem rebuilt_view {a : MigrationAction} (may : mayRebuild a = true) {m : SchemaView}
    {t : TableDef} (nodup : ((rebuiltColumns t a).map (·.name)).Nodup)
    (here : m (actionTable a) = some (columnsView t.columns)) :
    viewStep m a = Function.update m (actionTable a) (some (columnsView (rebuiltColumns t a))) := by
  have onto : ∀ {table : String} {g : TableView → TableView},
      m table = some (columnsView t.columns) →
        onTableView table g m = Function.update m table (some (g (columnsView t.columns))) := by
    intro table g here
    rw [onTableView, here, Option.map_some]
  have still : m = Function.update m (actionTable a) (some (columnsView t.columns)) := by
    rw [← here, Function.update_eq_self]
  cases a with
  | addColumn table column fillWith =>
    have fresh : ∀ d ∈ t.columns, d.name ≠ column.name := by
      intro d mem same
      have apart := (List.nodup_append.mp (by simpa [rebuiltColumns] using nodup)).2.2
      exact apart d.name (List.mem_map_of_mem mem) column.name (by simp) same
    refine (onto here).trans ?_
    rw [rebuiltColumns, columns_view_appended fresh]
  | deleteColumn table column =>
    refine (onto here).trans ?_
    rw [rebuiltColumns, columns_view_filtered]
  | modifyColumnType table column newType fillWith narrowing timezone =>
    have columns : columnsView (mapFirstColumn column (fun c => { c with type := newType })
        t.columns) = onColumnView column (fun c => { c with type := newType })
          (columnsView t.columns) := columns_view_mapped (fun _ => rfl) fun _ => rfl
    refine (onto here).trans ?_
    rw [rebuiltColumns, columns]
  | modifyColumnNullable table column nullable fillWith deleteNullRows =>
    have columns : columnsView (mapFirstColumn column (fun c => { c with nullable })
        t.columns) = onColumnView column (fun c => { c with nullable })
          (columnsView t.columns) := columns_view_mapped (fun _ => rfl) fun _ => rfl
    refine (onto here).trans ?_
    rw [rebuiltColumns, columns]
  | modifyColumnDefault table column newDefault backfill =>
    have columns : columnsView (mapFirstColumn column
        (fun c => { c with default := newDefault.map .string }) t.columns) =
          onColumnView column (fun c => { c with default := newDefault.map defaultText })
            (columnsView t.columns) := by
      refine columns_view_mapped (fun _ => rfl) fun c => ?_
      cases newDefault <;> rfl
    refine (onto here).trans ?_
    rw [rebuiltColumns, columns]
  | addConstraint table constraint => exact still
  | removeConstraint table constraint => exact still
  | replaceConstraint table old new => exact still
  | _ => cases may

def HasColumns (db : ColumnCatalog) (schema : Schema) : Prop :=
  project CatalogColumn.shape db = project ColumnAttributes.shape (schemaView schema)

section Step
variable {backend : DatabaseBackend} {schema s' : Schema} {db db' : ColumnCatalog}
  {a : MigrationAction} (seen : HasColumns db schema)
include seen

/-- The server refuses what replay has no name for. -/
theorem HasColumns.fresh (distinct : DistinctColumns schema)
    (step : CatalogStep backend schema db a db') :
    CreatesDistinct a ∧ NewNamesFree schema a := by
  cases step with
  | created table columns constraints emitted free nodup => exact ⟨nodup, trivial⟩
  | columnRenamed table old new columns there free =>
    refine ⟨trivial, fun t here => ?_⟩
    obtain ⟨v, in_schema, same⟩ := projected_table seen there
    rw [schemaView, here, Option.map_some] at in_schema
    obtain rfl := Option.some.inj in_schema
    refine ⟨distinct t (List.mem_of_find?_eq_some here), fun listed => ?_⟩
    have absent := congrFun same new
    rw [free, Option.map_none, Option.map_eq_none_iff, columns_view_none] at absent
    obtain ⟨c, mem, named⟩ := List.mem_map.mp listed
    exact absent c mem named
  | modified a column changes => cases a <;> first | exact ⟨trivial, trivial⟩ | cases changes
  | rebuilt a may => cases a <;> first | exact ⟨trivial, trivial⟩ | cases may
  | kept a keeps => cases a <;> first | exact ⟨trivial, trivial⟩ | cases keeps
  | _ => exact ⟨trivial, trivial⟩

theorem HasColumns.step (names : TableNamesNodup schema) (distinct : DistinctColumns schema)
    (step : CatalogStep backend schema db a db')
    (applied : (applyAction schema a).toExcept = .ok s') : HasColumns db' s' := by
  obtain ⟨_, free⟩ := seen.fresh distinct step
  rw [HasColumns, action_view names free applied]
  have whole : project CatalogColumn.shape db =
    project ColumnAttributes.shape (schemaView schema) := seen
  cases step with
  | created table columns constraints emitted free nodup =>
    rw [project_update, viewStep, project_update, whole, Option.map_some, Option.map_some,
      entries_shape]
  | dropped table => rw [project_update, viewStep, project_update, whole]; rfl
  | renamed old new free =>
    have moved := congrFun whole old
    rw [project_update, project_update, viewStep, project_update, project_update, whole]
    simp only [project] at moved
    rw [moved]
    rfl
  | added table column fillWith columns there free =>
    obtain ⟨v, here, same⟩ := projected_table seen there
    rw [project_update, viewStep, onTableView, project_update, whole, here, Option.map_some,
      Option.map_some, Option.map_some, project_column_update, project_column_update, same]
    simp [buildSeaColumnDef, SeaColumnDef.entry, CatalogColumn.shape, ColumnDef.attributes,
      ColumnAttributes.shape]
  | columnRenamed table old new columns there free =>
    obtain ⟨v, here, same⟩ := projected_table seen there
    have moved := congrFun same old
    rw [project_update, viewStep, onTableView, project_update, whole, here, Option.map_some,
      Option.map_some, Option.map_some, renameView, project_column_update, project_column_update,
      project_column_update, project_column_update, same]
    simp only [Option.map_none, moved]
  | columnDropped table column columns there =>
    obtain ⟨v, here, same⟩ := projected_table seen there
    rw [project_update, viewStep, onTableView, project_update, whole, here, Option.map_some,
      Option.map_some, Option.map_some, project_column_update, project_column_update, same]
    rfl
  | modified a column changes t here c found columns there on_mysql =>
    obtain ⟨v, in_schema, same⟩ := projected_table seen there
    have in_view : v column = some c.attributes := by
      rw [schemaView, here, Option.map_some] at in_schema
      rw [← Option.some.inj in_schema, columnsView, found, Option.map_some]
    rw [changed_shape changes c (schemaView schema) in_schema in_view, project_update, whole,
      Option.map_some, project_column_update, same]
    rfl
  | rebuilt a may t here emitted nodup on_sqlite =>
    have in_schema : schemaView schema (actionTable a) = some (columnsView t.columns) := by
      rw [schemaView, here, Option.map_some]
    rw [rebuilt_view may nodup in_schema, project_update, project_update, whole, Option.map_some,
      Option.map_some, entries_shape]
  | uncommented table column newComment on_sqlite =>
    have same : project ColumnAttributes.shape (onTableView table (onColumnView column fun c =>
        { c with comment := newComment }) (schemaView schema)) =
          project ColumnAttributes.shape (schemaView schema) := projection_kept fun _ => rfl
    rw [viewStep, same, whole]
  | kept a keeps =>
    cases a with
    | remapEnumValues table column mapping =>
      have same : project ColumnAttributes.shape (onTableView table (onColumnView column fun c =>
          { c with type := remapType mapping c.type }) (schemaView schema)) =
            project ColumnAttributes.shape (schemaView schema) :=
        projection_kept fun c => by simp [ColumnAttributes.shape, stored_remap]
      rw [viewStep, same, whole]
    | _ => first | exact whole | cases keeps

end Step

end Vespertide
