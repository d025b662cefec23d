import Vespertide.ActionSteps

/-!
What holds of every column of a schema, whatever its history. Replay gives a column
other attributes, another name or fewer inline declarations; a predicate that is
closed under these holds of every column once it holds of the columns brought in.
-/
namespace Vespertide

structure ClosedUnderEdits (P : ColumnDef → Prop) : Prop where
  attributes : ∀ c d, d.declarations = c.declarations → P c → P d
  renamed : ∀ c new, P c → P { c with name := new }
  primaryKey : ∀ c, P c → P { c with primaryKey := none }
  foreignKey : ∀ c, P c → P { c with foreignKey := none }
  unique : ∀ c, P c → P { c with unique := none }
  index : ∀ c, P c → P { c with index := none }
  uniqueName : ∀ c name, P c → P (clearUniqueName name c)
  indexName : ∀ c name, P c → P (clearIndexName name c)

def newColumns : MigrationAction → List ColumnDef
  | .createTable _ columns _ => columns
  | .addColumn _ column _ => [column]
  | _ => []

theorem action_tables {P : TableDef → Prop} {schema : Schema} {a : MigrationAction}
    (held : ∀ t ∈ schema, P t)
    (edited : isEdit a = true → ∀ t, P t → P (tableEdit a t).state)
    (created : ∀ table columns constraints, a = .createTable table columns constraints →
      P { name := table, description := none, columns, constraints :=
        promoted ⟨table, none, columns, constraints⟩ })
    (renamed : ∀ t name constraints, P t → P { t with name, constraints }) :
    ∀ t ∈ (applyAction schema a).state, P t := by
  by_cases edit : isEdit a = true
  · rw [edit_applies edit]
    cases found : tableAt schema (actionTable a) with
    | none => rwa [on_table_missing found]
    | some t =>
      obtain ⟨named, before, after, rfl, others⟩ := table_at_split found
      rw [on_table_split named others]
      obtain ⟨earlier, here⟩ := List.forall_mem_append.mp held
      obtain ⟨own, later⟩ := List.forall_mem_cons.mp here
      exact List.forall_mem_append.mpr
        ⟨earlier, List.forall_mem_cons.mpr ⟨edited edit t own, later⟩⟩
  · cases a with
    | createTable table columns constraints =>
      simp only [applyAction, createTable]
      split
      · exact held
      · cases normal : (TableDef.mk table none columns constraints).normalize with
        | error e => exact held
        | ok t =>
          obtain rfl := normalize_value normal
          exact List.forall_mem_append.mpr
            ⟨held, List.forall_mem_singleton.mpr (created table columns constraints rfl)⟩
    | deleteTable table =>
      simp only [applyAction, deleteTable]
      split <;> exact fun t mem => held t (List.mem_of_mem_filter mem)
    | renameTable old new =>
      simp only [applyAction, renameTable]
      split
      · exact held
      · cases found : tableAt schema old with
        | none =>
          simp only [on_table_missing found, Outcome.fail]
          exact held
        | some t =>
          obtain ⟨named, before, after, rfl, others⟩ := table_at_split found
          rw [on_table_split named others]
          obtain ⟨earlier, here⟩ := List.forall_mem_append.mp held
          obtain ⟨own, later⟩ := List.forall_mem_cons.mp here
          intro u mem
          obtain ⟨u', there, rfl⟩ := List.mem_map.mp mem
          rcases List.mem_append.mp there with front | back
          · exact renamed u' u'.name _ (earlier u' front)
          · rcases List.mem_cons.mp back with rfl | tail
            · exact renamed t new _ own
            · exact renamed u' u'.name _ (later u' tail)
    | rawSql sql => exact held
    | dataMigration sql description => exact held
    | _ => exact absurd rfl edit

section Closed
variable {P : ColumnDef → Prop} {columns : List ColumnDef}

theorem mapped_first_all {f : ColumnDef → ColumnDef} (kept : ∀ c, P c → P (f c)) (column : String)
    (held : ∀ c ∈ columns, P c) : ∀ c ∈ mapFirstColumn column f columns, P c := by
  induction columns with
  | nil => exact held
  | cons d rest ih =>
    obtain ⟨head, tail⟩ := List.forall_mem_cons.mp held
    unfold mapFirstColumn
    split
    · exact List.forall_mem_cons.mpr ⟨kept d head, tail⟩
    · exact List.forall_mem_cons.mpr ⟨head, ih tail⟩

theorem auto_named_all (kept : ∀ c, P c → P { c with index := none }) (table : String)
    (name : Option String) (held : ∀ c ∈ columns, P c) :
    ∀ c ∈ clearAutoNamedIndex table name columns, P c := by
  induction columns with
  | nil => exact held
  | cons d rest ih =>
    obtain ⟨head, tail⟩ := List.forall_mem_cons.mp held
    unfold clearAutoNamedIndex
    split
    · exact List.forall_mem_cons.mpr ⟨kept d head, tail⟩
    · exact List.forall_mem_cons.mpr ⟨head, ih tail⟩

theorem mapped_all {f : ColumnDef → ColumnDef} (kept : ∀ c, P c → P (f c))
    (held : ∀ c ∈ columns, P c) : ∀ c ∈ columns.map f, P c := by
  intro c mem
  obtain ⟨d, here, rfl⟩ := List.mem_map.mp mem
  exact kept d (held d here)

theorem cleared_field_all {clear : ColumnDef → ColumnDef} (kept : ∀ c, P c → P (clear c))
    (key : List String) (held : ∀ c ∈ columns, P c) :
    ∀ c ∈ clearColumnsField clear key columns, P c := by
  unfold clearColumnsField
  induction key generalizing columns with
  | nil => exact held
  | cons column key ih => exact ih (mapped_first_all kept column held)

variable (closed : ClosedUnderEdits P)
include closed

theorem cleared_unique_all (name : Option String) (key : List String)
    (held : ∀ c ∈ columns, P c) : ∀ c ∈ clearUniqueFields name key columns, P c := by
  unfold clearUniqueFields
  split
  · split
    · exact mapped_first_all closed.unique _ held
    · exact held
  · exact mapped_all (fun c => closed.uniqueName c _) held

theorem cleared_index_all (table : String) (name : Option String) (key : List String)
    (held : ∀ c ∈ columns, P c) : ∀ c ∈ clearIndexFields table name key columns, P c := by
  have auto := auto_named_all closed.index table name held
  unfold clearIndexFields
  dsimp only
  split
  · split
    · exact mapped_first_all closed.index _ auto
    · exact auto
  · exact mapped_all (fun c => closed.indexName c _) auto

theorem cleared_all (table : String) (constraint : TableConstraint)
    (held : ∀ c ∈ columns, P c) :
    ∀ c ∈ clearInlineConstraintFields table constraint columns, P c := by
  cases constraint with
  | unique name key strategy => exact cleared_unique_all closed name key held
  | primaryKey autoIncrement key strategy => exact cleared_field_all closed.primaryKey key held
  | foreignKey name key refTable refColumns onDelete onUpdate strategy =>
    exact cleared_field_all closed.foreignKey key held
  | check name expr strategy => exact held
  | index name key => exact cleared_index_all closed table name key held

theorem edit_columns {t : TableDef} {a : MigrationAction} (held : ∀ c ∈ t.columns, P c)
    (brought : ∀ c ∈ newColumns a, P c) : ∀ c ∈ (tableEdit a t).state.columns, P c := by
  have onto : ∀ table column (f : ColumnDef → ColumnDef), (∀ c, P c → P (f c)) →
      ∀ c ∈ (onColumn table column f t).state.columns, P c := by
    intro table column f kept
    unfold onColumn
    split
    · exact mapped_first_all kept column held
    · exact held
  cases a with
  | addColumn table column fillWith =>
    by_cases present : column.name ∈ t.columnNames
    · simp only [tableEdit, add_column_present present]
      exact held
    · by_cases accepted : Normalizable (t.columns ++ [column])
      · simp only [tableEdit, add_column_to present accepted]
        exact List.forall_mem_append.mpr ⟨held, brought⟩
      · simp only [tableEdit, (add_column_refused table present accepted).1]
        simp [emptiedTable]
  | renameColumn table old new =>
    simp only [tableEdit, renameColumnIn]
    split
    · exact mapped_first_all (fun c => closed.renamed c new) old held
    · exact held
  | deleteColumn table column =>
    simp only [tableEdit, deleteColumnFrom]
    split <;> exact fun c mem => held c (List.mem_of_mem_filter mem)
  | modifyColumnType table column newType => exact onto table column _ fun c => closed.attributes c _ rfl
  | modifyColumnNullable table column nullable => exact onto table column _ fun c => closed.attributes c _ rfl
  | modifyColumnDefault table column newDefault => exact onto table column _ fun c => closed.attributes c _ rfl
  | modifyColumnComment table column newComment => exact onto table column _ fun c => closed.attributes c _ rfl
  | remapEnumValues table column mapping => exact onto table column _ fun c => closed.attributes c _ rfl
  | addConstraint table constraint =>
    simp only [tableEdit, addConstraintTo]
    split <;> exact held
  | removeConstraint table constraint => exact cleared_all closed table constraint held
  | replaceConstraint table old new =>
    simp only [tableEdit, replaceConstraintIn]
    split
    · exact cleared_all closed table old held
    · exact held
  | _ => exact held

theorem action_columns {schema : Schema} {a : MigrationAction}
    (held : ∀ t ∈ schema, ∀ c ∈ t.columns, P c) (brought : ∀ c ∈ newColumns a, P c) :
    ∀ t ∈ (applyAction schema a).state, ∀ c ∈ t.columns, P c := by
  refine action_tables (P := fun t => ∀ c ∈ t.columns, P c) held ?_ ?_ fun _ _ _ kept => kept
  · intro _ t own
    exact edit_columns closed own brought
  · rintro table columns constraints rfl
    exact brought

end Closed

/-! Column names -/

def DistinctColumns (schema : Schema) : Prop := ∀ t ∈ schema, t.columnNames.Nodup

instance (schema : Schema) : Decidable (DistinctColumns schema) :=
  inferInstanceAs (Decidable (∀ t ∈ schema, t.columnNames.Nodup))

def BringsDistinct : MigrationAction → Prop
  | .createTable _ columns _ => (columns.map (·.name)).Nodup
  | .renameColumn _ _ _ => False
  | _ => True

theorem cleared_names (table : String) (constraint : TableConstraint) (columns : List ColumnDef) :
    (clearInlineConstraintFields table constraint columns).map (·.name) =
      columns.map (·.name) := by
  have read : (fun c : ColumnDef => c.name) = (fun c => c.name) ∘ ColumnDef.stripInline := rfl
  rw [read, ← List.map_map, cleared_attributes, List.map_map]

theorem edit_names_nodup {t : TableDef} {a : MigrationAction} (nodup : t.columnNames.Nodup)
    (brings : BringsDistinct a) : (tableEdit a t).state.columnNames.Nodup := by
  have onto : ∀ table column (f : ColumnDef → ColumnDef), (∀ c, (f c).name = c.name) →
      (onColumn table column f t).state.columnNames.Nodup := by
    intro table column f named
    unfold onColumn
    split
    · have kept := mapped_first_keeps (fun c => c.name) named column t.columns
      simp only [Outcome.ok, TableDef.columnNames, kept]
      exact nodup
    · exact nodup
  cases a with
  | addColumn table column fillWith =>
    by_cases present : column.name ∈ t.columnNames
    · simp only [tableEdit, add_column_present present]
      exact nodup
    · by_cases accepted : Normalizable (t.columns ++ [column])
      · simp only [tableEdit, add_column_to present accepted, Outcome.ok, TableDef.columnNames,
          List.map_append, List.map_cons, List.map_nil]
        refine List.nodup_append.mpr ⟨nodup, by simp, ?_⟩
        rintro name mem other here rfl
        exact present (List.mem_singleton.mp here ▸ mem)
      · simp only [tableEdit, (add_column_refused table present accepted).1]
        exact List.nodup_nil
  | renameColumn table old new => exact brings.elim
  | deleteColumn table column =>
    have kept : ((t.columns.filter (·.name ≠ column)).map (·.name)).Nodup :=
      (List.filter_sublist.map _).nodup nodup
    simp only [tableEdit, deleteColumnFrom]
    split <;> exact kept
  | modifyColumnType table column newType => exact onto table column _ fun _ => rfl
  | modifyColumnNullable table column nullable => exact onto table column _ fun _ => rfl
  | modifyColumnDefault table column newDefault => exact onto table column _ fun _ => rfl
  | modifyColumnComment table column newComment => exact onto table column _ fun _ => rfl
  | remapEnumValues table column mapping => exact onto table column _ fun _ => rfl
  | addConstraint table constraint =>
    simp only [tableEdit, addConstraintTo, Outcome.ok]
    split <;> exact nodup
  | removeConstraint table constraint =>
    simp only [tableEdit, removeConstraintFrom, Outcome.ok, TableDef.columnNames, cleared_names]
    exact nodup
  | replaceConstraint table old new =>
    simp only [tableEdit, replaceConstraintIn]
    split
    · simp only [Outcome.ok, TableDef.columnNames, cleared_names]
      exact nodup
    · exact nodup
  | _ => exact nodup

theorem action_distinct {schema : Schema} {a : MigrationAction} (distinct : DistinctColumns schema)
    (brings : BringsDistinct a) : DistinctColumns (applyAction schema a).state := by
  refine action_tables (P := fun t => t.columnNames.Nodup) distinct ?_ ?_ fun _ _ _ kept => kept
  · intro _ t own
    exact edit_names_nodup own brings
  · rintro table columns constraints rfl
    exact brings

end Vespertide
