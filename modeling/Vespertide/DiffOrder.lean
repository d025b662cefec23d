import Vespertide.Convergence
import Vespertide.References

/-!
The difference of two schemas reads their tables by name only: the order of the
tables does not matter, nor whether the tables are visited one by one or collected,
and a schema differs in nothing from itself.
-/
namespace Vespertide

/-! Both ways to visit the tables -/

theorem existing_tables_alike (threshold threshold' : Nat) (fromTables toTables : List TableDef) :
    diffExistingTables threshold fromTables toTables =
      diffExistingTables threshold' fromTables toTables := by
  have collected : ∀ (tables : List TableDef) (f : TableDef → List MigrationAction) actions,
      tables.foldl (fun actions tbl => actions ++ f tbl) actions =
        actions ++ (tables.map f).flatten := by
    intro tables f
    induction tables with
    | nil => simp
    | cons t tables ih =>
      intro actions
      rw [List.foldl_cons, ih, List.map_cons, List.flatten_cons, List.append_assoc]
  simp only [diffExistingTables, collected, List.nil_append, ite_self]

theorem diff_with_threshold (threshold : Nat) (fromSchema toSchema : List TableDef) :
    diffSchemasWith threshold fromSchema toSchema = diffSchemas fromSchema toSchema := by
  simp only [diffSchemas, diffSchemasWith, existing_tables_alike threshold diffParTableThreshold]

/-! Both orders of the tables -/

structure SameView (tables tables' : List TableDef) : Prop where
  keys : tableKeys tables = tableKeys tables'
  get : ∀ name, tableGet tables name = tableGet tables' name

theorem perm_view {tables tables' : List TableDef} (nodup : TableNamesNodup tables)
    (perm : tables.Perm tables') : SameView tables tables' :=
  ⟨KeyedView.keys_perm perm, congrFun (KeyedView.get_perm nodup perm)⟩

theorem SameView.entries {tables tables' : List TableDef} (same : SameView tables tables') :
    KeyedView.entries TableDef.name tables = KeyedView.entries TableDef.name tables' := by
  have keys : KeyedView.keys TableDef.name tables = KeyedView.keys TableDef.name tables' := same.keys
  rw [KeyedView.entries, KeyedView.entries, keys]
  exact List.filterMap_congr fun name _ => same.get name

section Views
variable {fromTables fromTables' toTables toTables' : List TableDef}
  (same_from : SameView fromTables fromTables') (same_to : SameView toTables toTables')

include same_from same_to in
theorem deleted_view :
    diffDeletedTables fromTables toTables = diffDeletedTables fromTables' toTables' := by
  simp only [diffDeletedTables, same_from.keys, same_to.get]

include same_from same_to in
theorem existing_view (threshold : Nat) : diffExistingTables threshold fromTables toTables =
    diffExistingTables threshold fromTables' toTables' := by
  have each : ∀ name tbl, diffExistingTable name fromTables tbl =
      diffExistingTable name fromTables' tbl := by
    intro name tbl
    rw [diffExistingTable, same_from.get, diffExistingTable]
  simp only [diffExistingTables, each, same_to.entries]

include same_from same_to in
theorem created_view {toOriginal toOriginal' : List TableDef}
    (same_original : SameView toOriginal toOriginal') :
    diffCreatedTables fromTables toTables toOriginal =
      diffCreatedTables fromTables' toTables' toOriginal' := by
  have each : createTableAction toOriginal = createTableAction toOriginal' := by
    funext tbl
    rw [createTableAction, same_original.get, createTableAction]
  simp only [diffCreatedTables, same_to.entries, same_from.get, each]

include same_from in
theorem sort_delete_view (actions : List MigrationAction) :
    sortDeleteTables actions fromTables = sortDeleteTables actions fromTables' := by
  have dependencies : ∀ names, deletionDependencies names fromTables =
      deletionDependencies names fromTables' := by
    intro names
    simp only [deletionDependencies, same_from.get]
  simp only [sortDeleteTables, dependencies]

include same_from in
theorem sort_enum_view (actions : List MigrationAction) :
    sortEnumDefaultDependencies actions fromTables =
      sortEnumDefaultDependencies actions fromTables' := by
  have swaps : enumDefaultSwap actions fromTables = enumDefaultSwap actions fromTables' := by
    funext change
    rw [enumDefaultSwap, same_from.get, enumDefaultSwap]
  simp only [sortEnumDefaultDependencies, swaps]

end Views

/-- The difference of two regular schemas fails at most where its new tables reference
    each other in a cycle. -/
theorem diff_regular {fromSchema toSchema : List TableDef}
    (regular : ∀ t ∈ fromSchema ++ toSchema, Regular t) : diffSchemas fromSchema toSchema =
      (diffCreatedTables (fromSchema.map normalized) (toSchema.map normalized) toSchema).map
        fun created => ⟨"", none, none, 0, sortEnumDefaultDependencies
          (sortCreateBeforeAddConstraint (sortDeleteTables
            (diffDeletedTables (fromSchema.map normalized) (toSchema.map normalized)
              ++ diffExistingTables diffParTableThreshold (fromSchema.map normalized)
                (toSchema.map normalized)
              ++ created) (fromSchema.map normalized))) (fromSchema.map normalized)⟩ := by
  have valid : validateColumnNames (fromSchema ++ toSchema) = .ok () :=
    (validate_columns_iff _).mpr fun t mem => (regular t mem).nodup
  have from_normal := normalize_schema_regular fun t mem =>
    regular t (List.mem_append_left toSchema mem)
  have to_normal := normalize_schema_regular fun t mem =>
    regular t (List.mem_append_right fromSchema mem)
  simp only [diffSchemas, diffSchemasWith, valid, from_normal, to_normal, bind, Except.bind, pure,
    Except.pure]
  cases diffCreatedTables (fromSchema.map normalized) (toSchema.map normalized) toSchema <;> rfl

theorem diff_irregular {fromSchema toSchema : List TableDef}
    (irregular : ¬ ∀ t ∈ fromSchema ++ toSchema, Regular t) :
    (diffSchemas fromSchema toSchema).toOption = none := by
  cases diffed : diffSchemas fromSchema toSchema with
  | error e => rfl
  | ok plan =>
    obtain ⟨_, _, planned⟩ := diff_schemas_planned diffed
    exact absurd (List.forall_mem_append.mpr ⟨planned.from_regular, planned.to_regular⟩) irregular

theorem normalized_names {tables : List TableDef} (nodup : TableNamesNodup tables) :
    TableNamesNodup (tables.map normalized) := by
  have same : (tables.map normalized).map TableDef.name = tables.map TableDef.name := by simp
  unfold TableNamesNodup at nodup ⊢
  rwa [same]

section Perm
variable {fromSchema fromSchema' toSchema toSchema' : List TableDef}
  (from_nodup : TableNamesNodup fromSchema) (to_nodup : TableNamesNodup toSchema)
  (from_perm : fromSchema.Perm fromSchema') (to_perm : toSchema.Perm toSchema')
include from_nodup to_nodup from_perm to_perm

theorem diff_perm : (diffSchemas fromSchema toSchema).toOption =
    (diffSchemas fromSchema' toSchema').toOption := by
  have members : ∀ t, t ∈ fromSchema ++ toSchema ↔ t ∈ fromSchema' ++ toSchema' := fun t =>
    (from_perm.append to_perm).mem_iff
  by_cases regular : ∀ t ∈ fromSchema ++ toSchema, Regular t
  · have regular' : ∀ t ∈ fromSchema' ++ toSchema', Regular t := fun t mem =>
      regular t ((members t).mpr mem)
    have same_from := perm_view (normalized_names from_nodup) (from_perm.map normalized)
    have same_to := perm_view (normalized_names to_nodup) (to_perm.map normalized)
    rw [diff_regular regular, diff_regular regular', deleted_view same_from same_to,
      existing_view same_from same_to, created_view same_from same_to (perm_view to_nodup to_perm)]
    simp only [sort_delete_view same_from, sort_enum_view same_from]
  · have irregular' : ¬ ∀ t ∈ fromSchema' ++ toSchema', Regular t := fun regular' =>
      regular fun t mem => regular' t ((members t).mp mem)
    rw [diff_irregular regular, diff_irregular irregular']

end Perm

/-! A schema and itself -/

theorem diff_self {schema : List TableDef} {plan : MigrationPlan}
    (diffed : diffSchemas schema schema = .ok plan) : plan.actions = [] := by
  obtain ⟨_, _, planned⟩ := diff_schemas_planned diffed
  refine (planned.actions_nil_iff fun _ => Iff.rfl).mpr fun name t u here there => ?_
  obtain rfl := Option.some.inj (here.symm.trans there)
  exact created_actions_nil (table_get_regular planned.from_regular here).1 rfl rfl

/-- The order of the tables and the way they are visited leave the plan as it is, and a
    schema differs in nothing from itself. -/
theorem diff_schemas_order_free {fromSchema fromSchema' toSchema toSchema' : List TableDef}
    (from_nodup : TableNamesNodup fromSchema) (to_nodup : TableNamesNodup toSchema)
    (from_perm : fromSchema.Perm fromSchema') (to_perm : toSchema.Perm toSchema') :
    (diffSchemas fromSchema toSchema).toOption = (diffSchemas fromSchema' toSchema').toOption ∧
      (∀ threshold, diffSchemasWith threshold fromSchema toSchema =
        diffSchemas fromSchema toSchema) ∧
      ∀ schema plan, diffSchemas schema schema = .ok plan → plan.actions = [] :=
  ⟨diff_perm from_nodup to_nodup from_perm to_perm,
    fun threshold => diff_with_threshold threshold fromSchema toSchema, fun _ _ => diff_self⟩

set_option maxRecDepth 100000 in
/-- Two tables in either order, one of them new. -/
theorem family_order_free :
    (diffSchemas [parentTable ["id"]] [parentTable ["id"], childTable "id"]).toOption =
      (diffSchemas [parentTable ["id"]] [childTable "id", parentTable ["id"]]).toOption ∧
      (∀ threshold, diffSchemasWith threshold [parentTable ["id"]]
        [parentTable ["id"], childTable "id"] =
          diffSchemas [parentTable ["id"]] [parentTable ["id"], childTable "id"]) ∧
      ∀ schema plan, diffSchemas schema schema = .ok plan → plan.actions = [] :=
  diff_schemas_order_free (by decide) (by decide) (.refl _) (.swap _ _ _)

end Vespertide
