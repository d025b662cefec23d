import Vespertide.CreateOrder
import Vespertide.TableDiff

/-!
The shape of a computed plan: new tables, then dropped tables, then the tables
that stay one after the other, then the foreign keys that need a new table.
-/
namespace Vespertide
open Components Rearrange ReadyOrder

/-! The two schemas, normalised -/

def normalized (t : TableDef) : TableDef := { t with constraints := promoted t }

@[simp] theorem normalized_name (t : TableDef) : (normalized t).name = t.name := rfl
@[simp] theorem normalized_columns (t : TableDef) : (normalized t).columns = t.columns := rfl
@[simp] theorem normalized_constraints (t : TableDef) :
    (normalized t).constraints = promoted t := rfl

theorem validate_columns_iff (tables : List TableDef) :
    validateColumnNames tables = .ok () ↔ ∀ t ∈ tables, t.columnNames.Nodup := by
  induction tables with
  | nil => simp [validateColumnNames]
  | cons t rest ih =>
    unfold validateColumnNames
    rw [List.forall_mem_cons, ← ih, ← validate_unique_iff]
    cases t.validateUniqueColumnNames with
    | error e => simp
    | ok _ => simp

theorem normalize_regular {t : TableDef} (regular : Regular t) :
    t.normalize = .ok (normalized t) := normalize_eq regular.nodup regular.inlines

theorem normalize_schema_regular {schema : List TableDef} (regular : ∀ t ∈ schema, Regular t) :
    normalizeSchema schema = .ok (schema.map normalized) := by
  induction schema with
  | nil => rfl
  | cons t rest ih =>
    obtain ⟨own, others⟩ := List.forall_mem_cons.mp regular
    simp only [normalizeSchema, normalize_regular own, ih others]
    rfl

theorem normalize_schema_ok {schema schema' : List TableDef}
    (nodup : ∀ t ∈ schema, t.columnNames.Nodup) (ok : normalizeSchema schema = .ok schema') :
    ∀ t ∈ schema, Regular t := by
  induction schema generalizing schema' with
  | nil => simp
  | cons t rest ih =>
    obtain ⟨own, others⟩ := List.forall_mem_cons.mp nodup
    unfold normalizeSchema at ok
    cases normal : t.normalize with
    | error e => simp [normal] at ok
    | ok t' =>
      rw [normal] at ok
      cases tail : normalizeSchema rest with
      | error e => simp [tail, Except.map] at ok
      | ok rest' => exact List.forall_mem_cons.mpr ⟨⟨own, normalize_inlines normal⟩, ih others tail⟩

theorem table_get_normalized (schema : List TableDef) (name : String) :
    tableGet (schema.map normalized) name = (tableGet schema name).map normalized :=
  KeyedView.get_map normalized_name schema name

theorem table_keys_normalized (schema : List TableDef) :
    tableKeys (schema.map normalized) = tableKeys schema := by
  have same : (schema.map normalized).map TableDef.name = schema.map TableDef.name := by simp
  simp only [tableKeys, KeyedView.keys, same]

theorem table_get_regular {schema : List TableDef} (regular : ∀ t ∈ schema, Regular t)
    {name : String} {t : TableDef} (found : tableGet schema name = some t) :
    Regular t ∧ t.name = name := by
  obtain ⟨mem, named⟩ := KeyedView.get_some found
  exact ⟨regular t mem, named⟩

theorem mem_table_keys {schema : List TableDef} {name : String} :
    name ∈ tableKeys schema ↔ (tableGet schema name).isSome := by
  rw [KeyedView.mem_keys, KeyedView.get_isSome_iff]

/-! The parts of a plan -/

def createOf (t : TableDef) : MigrationAction := .createTable t.name t.columns t.constraints

def droppedNames (fromSchema toSchema : List TableDef) : List String :=
  (tableKeys fromSchema).filter fun name => (tableGet toSchema name).isNone

def needsCreated (createdTables : List String) (c : TableConstraint) : Bool :=
  match refTableOf c with
  | some refTable => refTable ∈ createdTables
  | none => false

section Blocks
variable (fromSchema toSchema : List TableDef) (createdTables : List String)
  (edits : String → List MigrationAction)

/-- The actions on a table that stays, without the foreign keys to new tables. -/
def earlyBlock (name : String) : List MigrationAction :=
  match tableGet fromSchema name, tableGet toSchema name with
  | some t, some u => tableActions name t (normalized u) (edits name)
      ((additions name t (normalized u)).filter (! needsCreated createdTables ·))
  | _, _ => []

def lateBlock (name : String) : List MigrationAction :=
  match tableGet fromSchema name, tableGet toSchema name with
  | some t, some u => ((additions name t (normalized u)).filter (needsCreated createdTables ·)).map
      (.addConstraint name ·)
  | _, _ => []

end Blocks

/-- A plan between two schemas, with its new tables and the attribute changes of
    each table that stays in the order they have in it. -/
structure Planned (fromSchema toSchema created : List TableDef)
    (edits : String → List MigrationAction) (actions : List MigrationAction) : Prop where
  from_regular : ∀ t ∈ fromSchema, Regular t
  to_regular : ∀ t ∈ toSchema, Regular t
  mem_created : ∀ t, t ∈ created ↔
    tableGet toSchema t.name = some t ∧ tableGet fromSchema t.name = none
  created_nodup : TableNamesNodup created
  created_order : created.Pairwise fun a b => ∀ c ∈ promoted a, refTableOf c ≠ some b.name
  edits_perm : ∀ name t u, tableGet fromSchema name = some t → tableGet toSchema name = some u →
    (edits name).Perm (attributeEdits name t.columns u.columns)
  actions_eq : actions = created.map createOf
    ++ (dropOrder (droppedNames fromSchema toSchema) (fromSchema.map normalized)).map .deleteTable
    ++ (tableKeys toSchema).flatMap
      (earlyBlock fromSchema toSchema (created.map (·.name)) edits)
    ++ (tableKeys toSchema).flatMap (lateBlock fromSchema toSchema (created.map (·.name)))

/-! New tables -/

theorem created_originals {toSchema sorted : List TableDef}
    (known : ∀ x ∈ sorted, ∃ t, tableGet toSchema x.name = some t ∧ normalized t = x) :
    ∃ created : List TableDef, created.map normalized = sorted ∧
      (∀ t ∈ created, tableGet toSchema t.name = some t) ∧
      sorted.mapM (createTableAction toSchema) = .ok (created.map createOf) := by
  induction sorted with
  | nil => exact ⟨[], rfl, by simp, rfl⟩
  | cons x sorted ih =>
    obtain ⟨own, others⟩ := List.forall_mem_cons.mp known
    obtain ⟨created, originals, found, actions⟩ := ih others
    obtain ⟨t, here, rfl⟩ := own
    rw [normalized_name] at here
    refine ⟨t :: created, by rw [List.map_cons, originals],
      List.forall_mem_cons.mpr ⟨here, found⟩, ?_⟩
    simp only [List.mapM_cons, createTableAction, normalized_name, here, actions]
    rfl

section Schemas
variable {fromSchema toSchema : List TableDef}

theorem diff_created_tables {actions : List MigrationAction}
    (ok : diffCreatedTables (fromSchema.map normalized) (toSchema.map normalized) toSchema =
      .ok actions) :
    ∃ created : List TableDef, actions = created.map createOf ∧
      (∀ t, t ∈ created ↔ tableGet toSchema t.name = some t ∧ tableGet fromSchema t.name = none) ∧
      TableNamesNodup created ∧
      created.Pairwise fun a b => ∀ c ∈ promoted a, refTableOf c ≠ some b.name := by
  simp only [diffCreatedTables, KeyedView.entries_map normalized_name, table_get_normalized,
    Option.isNone_map] at ok
  set newTables := ((KeyedView.entries TableDef.name toSchema).map normalized).filter fun tbl =>
    (tableGet fromSchema tbl.name).isNone with new_tables
  have nodup : TableNamesNodup newTables := by
    refine (List.filter_sublist.map _).nodup ?_
    rw [List.map_map]
    exact KeyedView.entries_key_nodup TableDef.name toSchema
  have mem_new : ∀ x, x ∈ newTables ↔ (∃ t, tableGet toSchema t.name = some t ∧ normalized t = x) ∧
      tableGet fromSchema x.name = none := by
    intro x
    simp only [new_tables, List.mem_filter, List.mem_map, KeyedView.mem_entries,
      Option.isNone_iff_eq_none]
  cases sort : topologicalSortTables newTables with
  | error e => simp [sort, bind, Except.bind] at ok
  | ok sorted =>
    obtain ⟨perm, order⟩ := topological_sort nodup sort
    obtain ⟨created, originals, found, creates⟩ :=
      created_originals (by
        intro x mem
        obtain ⟨⟨t, here, rfl⟩, _⟩ := (mem_new x).mp (perm.mem_iff.mp mem)
        exact ⟨t, here, rfl⟩)
    refine ⟨created, ?_, ?_, ?_, ?_⟩
    · simp only [sort, bind, Except.bind] at ok
      exact Except.ok.inj (ok.symm.trans creates)
    · intro t
      constructor
      · intro mem
        have listed : normalized t ∈ sorted := originals ▸ List.mem_map_of_mem mem
        exact ⟨found t mem, ((mem_new _).mp (perm.mem_iff.mp listed)).2⟩
      · rintro ⟨here, absent⟩
        have listed := perm.mem_iff.mpr ((mem_new (normalized t)).mpr ⟨⟨t, here, rfl⟩, absent⟩)
        rw [← originals] at listed
        obtain ⟨t', mem, same⟩ := List.mem_map.mp listed
        have name_eq : (normalized t').name = (normalized t).name := congrArg TableDef.name same
        simp only [normalized_name] at name_eq
        have there := found t' mem
        rw [name_eq, here] at there
        exact Option.some.inj there ▸ mem
    · have names : sorted.map (·.name) = created.map (·.name) := by
        rw [← originals, List.map_map]
        rfl
      rw [TableNamesNodup, ← names]
      exact (perm.map _).nodup_iff.mpr nodup
    · rw [← originals, List.pairwise_map] at order
      exact order

/-! Tables that stay -/

def wholeBlock (fromSchema toSchema : List TableDef) (name : String) : List MigrationAction :=
  match tableGet fromSchema name, tableGet toSchema name with
  | some t, some u => tableActions name t (normalized u)
      (attributeEdits name t.columns u.columns) (additions name t (normalized u))
  | _, _ => []

theorem diff_existing_block {u : TableDef} {name : String}
    (found : tableGet toSchema name = some u) :
    diffExistingTable name (fromSchema.map normalized) (normalized u) =
      wholeBlock fromSchema toSchema name := by
  have there := table_get_normalized fromSchema name
  unfold wholeBlock
  cases here : tableGet fromSchema name with
  | none =>
    rw [here, Option.map_none] at there
    simp only [diffExistingTable, there]
  | some t =>
    rw [here, Option.map_some] at there
    simp only [found]
    exact diff_existing_shape there

theorem diff_existing_tables (threshold : Nat) :
    diffExistingTables threshold (fromSchema.map normalized) (toSchema.map normalized) =
      (tableKeys toSchema).flatMap (wholeBlock fromSchema toSchema) := by
  have blocks : ∀ names : List String,
      (((names.filterMap (tableGet toSchema)).map normalized).map fun tbl =>
        diffExistingTable tbl.name (fromSchema.map normalized) tbl).flatten =
        names.flatMap (wholeBlock fromSchema toSchema) := by
    intro names
    induction names with
    | nil => rfl
    | cons name names ih =>
      cases found : tableGet toSchema name with
      | none =>
        have nothing : wholeBlock fromSchema toSchema name = [] := by
          unfold wholeBlock
          rw [found]
          split
          · rename_i absurd_some
            cases absurd_some
          · rfl
        rw [List.filterMap_cons_none found, ih, List.flatMap_cons, nothing, List.nil_append]
      | some u =>
        have named := (KeyedView.get_some found).2
        rw [List.filterMap_cons_some found, List.flatMap_cons, List.map_cons, List.map_cons,
          List.flatten_cons, ih, normalized_name, named, diff_existing_block found]
  simp only [diffExistingTables, KeyedView.entries_map normalized_name]
  split
  · rw [List.foldl_append_eq_append, List.nil_append]
    exact blocks _
  · exact blocks _

end Schemas

/-! The actions of a block -/

section Block
variable {name : String} {t u : TableDef} {edits : List MigrationAction}
  {added : List TableConstraint} {a : MigrationAction}

theorem attribute_edit_cases {fromCols toCols : List ColumnDef}
    (mem : a ∈ attributeEdits name fromCols toCols) :
    actionTable a = name ∧ ∃ column f, columnEdit a = some (column, f) := by
  obtain ⟨fromDef, toDef, _, _, edit⟩ := attribute_edit_of mem
  refine ⟨?_, toDef.name, column_edit_of edit⟩
  rcases column_edit_cases edit with ⟨rfl, _⟩ | ⟨rfl, _⟩ | rfl | rfl | rfl <;> rfl

theorem table_action_cases (perm : edits.Perm (attributeEdits name t.columns u.columns))
    (mem : a ∈ tableActions name t u edits added) :
    (∃ column ∈ droppedColumns t u, a = .deleteColumn name column) ∨
    (a ∈ attributeEdits name t.columns u.columns) ∨
    (∃ column ∈ addedColumns t u, a = .addColumn name column none) ∨
    (∃ old new, a = .replaceConstraint name old new ∧ a ∈ replacements name t u) ∨
    (∃ c ∈ removals name t u, a = .removeConstraint name c) ∨
    ∃ c ∈ added, a = .addConstraint name c := by
  simp only [tableActions, columnActions, List.mem_append, List.mem_map] at mem
  rcases mem with (((((⟨c, listed, rfl⟩ | edit) | ⟨c, listed, rfl⟩) | replaces) |
    ⟨c, listed, rfl⟩) | ⟨c, listed, rfl⟩)
  · exact .inl ⟨c, listed, rfl⟩
  · exact .inr (.inl (perm.mem_iff.mp edit))
  · exact .inr (.inr (.inl ⟨c, listed, rfl⟩))
  · obtain ⟨old, new, rfl, _⟩ := replacements_replace a replaces
    exact .inr (.inr (.inr (.inl ⟨old, new, rfl, replaces⟩)))
  · exact .inr (.inr (.inr (.inr (.inl ⟨c, listed, rfl⟩))))
  · exact .inr (.inr (.inr (.inr (.inr ⟨c, listed, rfl⟩))))

theorem table_action_edit (perm : edits.Perm (attributeEdits name t.columns u.columns))
    (mem : a ∈ tableActions name t u edits added) : actionTable a = name ∧ isEdit a = true := by
  rcases table_action_cases perm mem with ⟨c, _, rfl⟩ | edit | ⟨c, _, rfl⟩ | ⟨old, new, rfl, _⟩ |
    ⟨c, _, rfl⟩ | ⟨c, _, rfl⟩
  · exact ⟨rfl, rfl⟩
  · obtain ⟨named, column, f, about⟩ := attribute_edit_cases edit
    refine ⟨named, ?_⟩
    cases a <;> first | rfl | cases about
  · exact ⟨rfl, rfl⟩
  · exact ⟨rfl, rfl⟩
  · exact ⟨rfl, rfl⟩
  · exact ⟨rfl, rfl⟩

theorem refs_created_addition {createdTables : List String} (n : String) (c : TableConstraint) :
    refsCreated createdTables (.addConstraint n c) = needsCreated createdTables c := by
  cases c <;> rfl

theorem refs_created_other {createdTables : List String}
    (other : ∀ n c, a ≠ .addConstraint n c) : refsCreated createdTables a = false := by
  cases a with
  | addConstraint n c => exact absurd rfl (other n c)
  | _ => rfl

theorem none_late (createdTables : List String) {actions : List MigrationAction}
    (other : ∀ a ∈ actions, ∀ n c, a ≠ .addConstraint n c) :
    actions.filter (! refsCreated createdTables ·) = actions ∧
      actions.filter (refsCreated createdTables ·) = [] := by
  constructor
  · rw [List.filter_eq_self]
    intro a mem
    rw [refs_created_other (other a mem)]
    rfl
  · rw [List.filter_eq_nil_iff]
    intro a mem
    simp [refs_created_other (other a mem)]

theorem split_table_actions (createdTables : List String)
    (perm : edits.Perm (attributeEdits name t.columns u.columns)) :
    (tableActions name t u edits added).filter (! refsCreated createdTables ·) =
        tableActions name t u edits (added.filter (! needsCreated createdTables ·)) ∧
      (tableActions name t u edits added).filter (refsCreated createdTables ·) =
        (added.filter (needsCreated createdTables ·)).map (.addConstraint name ·) := by
  have front : ∀ a ∈ tableActions name t u edits [], ∀ n c, a ≠ .addConstraint n c := by
    intro a mem n c
    rcases table_action_cases perm mem with ⟨c, _, rfl⟩ | edit | ⟨c, _, rfl⟩ | ⟨old, new, rfl, _⟩ |
      ⟨c, _, rfl⟩ | ⟨c, absent, rfl⟩
    · simp
    · obtain ⟨_, column, f, about⟩ := attribute_edit_cases edit
      rintro rfl
      cases about
    · simp
    · simp
    · simp
    · cases absent
  have whole : ∀ added, tableActions name t u edits added =
      tableActions name t u edits [] ++ added.map (MigrationAction.addConstraint name ·) := by
    intro added
    simp [tableActions]
  obtain ⟨stays, nothing⟩ := none_late createdTables front
  rw [whole added, whole (added.filter _), List.filter_append, List.filter_append, stays, nothing,
    List.nil_append]
  simp only [List.filter_map, Function.comp_def, refs_created_addition, and_self]

end Block

/-! Creations first, the foreign keys that need them last -/

def creationRank (createdTables : List String) (a : MigrationAction) : Nat :=
  if (createdTableName a).isSome then 0 else if refsCreated createdTables a then 2 else 1

theorem create_not_late {createdTables : List String} {a : MigrationAction}
    (creates : (createdTableName a).isSome) : refsCreated createdTables a = false := by
  cases a with
  | createTable table columns constraints => rfl
  | _ => cases creates

theorem compare_rank (createdTables : List String) (a b : MigrationAction) :
    compareActionsForCreateOrder createdTables a b ≠ .gt ↔
      creationRank createdTables a ≤ creationRank createdTables b := by
  have create_a : (createdTableName a).isSome → refsCreated createdTables a = false :=
    create_not_late
  have create_b : (createdTableName b).isSome → refsCreated createdTables b = false :=
    create_not_late
  unfold compareActionsForCreateOrder creationRank
  cases first : (createdTableName a).isSome <;> cases second : (createdTableName b).isSome <;>
    cases late_a : refsCreated createdTables a <;> cases late_b : refsCreated createdTables b <;>
    simp_all

theorem sort_ranks (createdTables : List String) (actions : List MigrationAction) :
    (actions.insertionSort fun a b => compareActionsForCreateOrder createdTables a b ≠ .gt) =
      actions.filter (creationRank createdTables · = 0) ++
        actions.filter (creationRank createdTables · = 1) ++
        actions.filter (creationRank createdTables · = 2) := by
  have same := List.map_insertionSort
    (fun a b => compareActionsForCreateOrder createdTables a b ≠ .gt)
    (fun a b => creationRank createdTables a ≤ creationRank createdTables b)
    id actions fun a _ b _ => compare_rank createdTables a b
  rw [List.map_id, List.map_id] at same
  rw [same]
  apply sort_three_ranks
  intro a _
  unfold creationRank
  split
  · omega
  · split <;> omega

theorem sort_creations {created : List TableDef} {others : List MigrationAction}
    (no_creation : ∀ a ∈ others, createdTableName a = none) :
    sortCreateBeforeAddConstraint (others ++ created.map createOf) = created.map createOf ++
      others.filter (! refsCreated (created.map (·.name)) ·) ++
      others.filter (refsCreated (created.map (·.name)) ·) := by
  have names : (others ++ created.map createOf).filterMap createdTableName =
      created.map (·.name) := by
    have nothing : others.filterMap createdTableName = [] :=
      List.filterMap_eq_nil_iff.mpr no_creation
    rw [List.filterMap_append, nothing, List.nil_append, List.filterMap_map, ← List.filterMap_eq_map]
    rfl
  unfold sortCreateBeforeAddConstraint
  simp only [names]
  split
  · rename_i none_created
    obtain rfl := List.map_eq_nil_iff.mp none_created
    have early : ∀ a, refsCreated [] a = false := by
      intro a
      cases a with
      | addConstraint n c => cases c <;> simp [refsCreated]
      | _ => rfl
    simp [early]
  · rw [sort_ranks]
    generalize created.map (·.name) = createdTables
    have creates : ∀ a ∈ created.map createOf, creationRank createdTables a = 0 := by
      intro a mem
      obtain ⟨t, _, rfl⟩ := List.mem_map.mp mem
      rfl
    have ranks : ∀ a ∈ others, creationRank createdTables a =
        if refsCreated createdTables a then 2 else 1 := by
      intro a mem
      simp [creationRank, no_creation a mem]
    simp only [List.filter_append]
    have first : others.filter (creationRank createdTables · = 0) = [] := by
      rw [List.filter_eq_nil_iff]
      intro a mem
      rw [ranks a mem]
      split <;> simp
    have second : others.filter (creationRank createdTables · = 1) =
        others.filter (! refsCreated createdTables ·) := by
      apply List.filter_congr
      intro a mem
      rw [ranks a mem]
      cases refsCreated createdTables a <;> rfl
    have third : others.filter (creationRank createdTables · = 2) =
        others.filter (refsCreated createdTables ·) := by
      apply List.filter_congr
      intro a mem
      rw [ranks a mem]
      cases refsCreated createdTables a <;> rfl
    have all : (created.map createOf).filter (creationRank createdTables · = 0) =
        created.map createOf := by
      rw [List.filter_eq_self]
      intro a mem
      simp [creates a mem]
    have none_else : ∀ k, k ≠ 0 →
        (created.map createOf).filter (creationRank createdTables · = k) = [] := by
      intro k positive
      rw [List.filter_eq_nil_iff]
      intro a mem
      simp [creates a mem, Ne.symm positive]
    rw [first, second, third, all, none_else 1 (by omega), none_else 2 (by omega), List.nil_append,
      List.append_nil, List.append_nil]

/-! Enum defaults before type changes -/

def enumChangeTable : MigrationAction → Option String
  | .modifyColumnType table _ _ _ _ _ => some table
  | .modifyColumnDefault table _ _ _ => some table
  | _ => none

theorem type_change_slot {actions : List MigrationAction} {key : String × String} {i : Nat}
    {newType : ColumnType} (mem : (key, i, newType) ∈ typeChanges actions) :
    ∃ a, actions[i]? = some a ∧ enumChangeTable a = some key.1 := by
  obtain ⟨⟨a, j⟩, here, shape⟩ := List.mem_filterMap.mp mem
  have slot := List.mem_zipIdx_iff_getElem?.mp here
  cases a with
  | modifyColumnType table column type fill remap fallback =>
    simp only [Option.some.injEq, Prod.mk.injEq] at shape
    obtain ⟨rfl, rfl, _⟩ := shape
    exact ⟨_, slot, rfl⟩
  | _ => cases shape

theorem default_change_slot {actions : List MigrationAction} {key : String × String} {i : Nat}
    (mem : (key, i) ∈ defaultChanges actions) :
    ∃ a, actions[i]? = some a ∧ enumChangeTable a = some key.1 := by
  obtain ⟨⟨a, j⟩, here, shape⟩ := List.mem_filterMap.mp mem
  have slot := List.mem_zipIdx_iff_getElem?.mp here
  cases a with
  | modifyColumnDefault table column newDefault backfill =>
    simp only [Option.some.injEq, Prod.mk.injEq] at shape
    obtain ⟨rfl, rfl⟩ := shape
    exact ⟨_, slot, rfl⟩
  | _ => cases shape

theorem enum_default_swap_slots {actions : List MigrationAction} {fromTables : List TableDef}
    {change : (String × String) × Nat × ColumnType} (listed : change ∈ typeChanges actions)
    {swap : Nat × Nat} (swaps : enumDefaultSwap actions fromTables change = some swap) :
    ∃ x y, actions[swap.1]? = some x ∧ actions[swap.2]? = some y ∧
      enumChangeTable x = enumChangeTable y ∧ enumChangeTable x ≠ none := by
  obtain ⟨⟨table, column⟩, typeIdx, newType⟩ := change
  obtain ⟨x, first, x_table⟩ := type_change_slot listed
  simp only [enumDefaultSwap] at swaps
  split at swaps
  · rename_i key defaultIdx fromTable found _
    obtain ⟨present, same⟩ := KeyedView.get_some found
    obtain ⟨y, second, y_table⟩ := default_change_slot present
    have key_eq : key = (table, column) := by simpa using same
    subst key_eq
    split at swaps
    · split at swaps
      · split at swaps
        · obtain rfl := Option.some.inj swaps
          exact ⟨x, y, first, second, x_table.trans y_table.symm, by simp [x_table]⟩
        · cases swaps
      · cases swaps
    · cases swaps
  · cases swaps

theorem sort_enum_rearranged (actions : List MigrationAction) (fromTables : List TableDef) :
    Rearranged enumChangeTable actions (sortEnumDefaultDependencies actions fromTables) := by
  apply rearranged_swaps
  intro swap mem
  obtain ⟨change, listed, swaps⟩ := List.mem_filterMap.mp mem
  exact enum_default_swap_slots (KeyedView.get_some (KeyedView.mem_entries.mp listed)).1 swaps

section Moved
variable {name : String} {t u : TableDef} {added : List TableConstraint}

theorem enum_change_table {a : MigrationAction} {table : String}
    (changes : enumChangeTable a = some table) : actionTable a = table := by
  cases a <;> first | exact Option.some.inj changes | cases changes

/-- Within a block only attribute changes move. -/
theorem table_actions_moved {moved : List MigrationAction}
    (rearranged : Rearranged enumChangeTable (tableActions name t u
      (attributeEdits name t.columns u.columns) added) moved) :
    ∃ edits, edits.Perm (attributeEdits name t.columns u.columns) ∧
      moved = tableActions name t u edits added := by
  have shape : ∀ edits, tableActions name t u edits added =
      (droppedColumns t u).map (MigrationAction.deleteColumn name ·) ++ edits ++
        ((addedColumns t u).map (MigrationAction.addColumn name · none) ++ replacements name t u ++
          (removals name t u).map (MigrationAction.removeConstraint name ·) ++
          added.map (MigrationAction.addConstraint name ·)) := by
    intro edits
    simp [tableActions, columnActions]
  rw [shape] at rearranged
  obtain ⟨edits, rfl, edits_moved⟩ := rearranged.split_middle (by
    intro a mem
    obtain ⟨c, _, rfl⟩ := List.mem_map.mp mem
    rfl) (by
    intro a mem
    simp only [List.mem_append, List.mem_map] at mem
    rcases mem with ((⟨c, _, rfl⟩ | replaces) | ⟨c, _, rfl⟩) | ⟨c, _, rfl⟩
    · rfl
    · obtain ⟨old, new, rfl, _⟩ := replacements_replace a replaces
      rfl
    · rfl
    · rfl)
  exact ⟨edits, edits_moved.perm.symm, (shape edits).symm⟩

end Moved

section Early
variable {fromSchema toSchema : List TableDef} {createdTables : List String}

def computedEdits (fromSchema toSchema : List TableDef) (name : String) : List MigrationAction :=
  match tableGet fromSchema name, tableGet toSchema name with
  | some t, some u => attributeEdits name t.columns u.columns
  | _, _ => []

theorem early_block_table {name : String} {a : MigrationAction}
    (mem : a ∈ earlyBlock fromSchema toSchema createdTables
      (computedEdits fromSchema toSchema) name) : actionTable a = name := by
  unfold earlyBlock computedEdits at mem
  split at mem
  · exact (table_action_edit (.refl _) mem).1
  · cases mem

theorem early_block_moved {name : String} {moved : List MigrationAction}
    (rearranged : Rearranged enumChangeTable (earlyBlock fromSchema toSchema createdTables
      (computedEdits fromSchema toSchema) name) moved) :
    ∃ edits : List MigrationAction,
      (∀ t u, tableGet fromSchema name = some t → tableGet toSchema name = some u →
        edits.Perm (attributeEdits name t.columns u.columns)) ∧
      moved = earlyBlock fromSchema toSchema createdTables (fun _ => edits) name := by
  unfold earlyBlock computedEdits at rearranged
  unfold earlyBlock
  split at rearranged
  · rename_i t u here there
    obtain ⟨edits, perm, same⟩ := table_actions_moved rearranged
    refine ⟨edits, ?_, same⟩
    intro t' u' here' there'
    obtain rfl := Option.some.inj (here.symm.trans here')
    obtain rfl := Option.some.inj (there.symm.trans there')
    exact perm
  · rename_i none_stays
    refine ⟨[], ?_, rearranged.eq_of_unclassed (by simp)⟩
    intro t u here there
    exact (none_stays t u here there).elim

theorem early_blocks_moved {moved : List MigrationAction}
    (rearranged : Rearranged enumChangeTable ((tableKeys toSchema).flatMap
      (earlyBlock fromSchema toSchema createdTables (computedEdits fromSchema toSchema))) moved) :
    ∃ edits : String → List MigrationAction,
      (∀ name t u, tableGet fromSchema name = some t → tableGet toSchema name = some u →
        (edits name).Perm (attributeEdits name t.columns u.columns)) ∧
      moved = (tableKeys toSchema).flatMap
        (earlyBlock fromSchema toSchema createdTables edits) := by
  obtain ⟨block, rfl, blocks⟩ := rearranged.split_blocks (KeyedView.keys_nodup _ _) (by
    intro n _ m _ apart x x_mem y y_mem same
    cases classed : enumChangeTable x with
    | none => rfl
    | some table =>
      have first := early_block_table x_mem
      have second := early_block_table y_mem
      rw [enum_change_table classed] at first
      rw [enum_change_table (same ▸ classed)] at second
      exact absurd (first.symm.trans second) apart)
  have own : ∀ name, ∃ edits : List MigrationAction,
      (∀ t u, tableGet fromSchema name = some t → tableGet toSchema name = some u →
        edits.Perm (attributeEdits name t.columns u.columns)) ∧
      (name ∈ tableKeys toSchema →
        block name = earlyBlock fromSchema toSchema createdTables (fun _ => edits) name) := by
    intro name
    by_cases listed : name ∈ tableKeys toSchema
    · obtain ⟨edits, perm, same⟩ := early_block_moved (blocks name listed)
      exact ⟨edits, perm, fun _ => same⟩
    · refine ⟨[], ?_, fun mem => absurd mem listed⟩
      intro t u _ there
      exact absurd (mem_table_keys.mpr (by rw [there]; rfl)) listed
  choose edits perm same using own
  refine ⟨edits, perm, ?_⟩
  rw [List.flatMap_congr fun name mem => same name mem]
  rfl

end Early

/-! The whole plan -/

section Whole
variable {fromSchema toSchema : List TableDef}

theorem diff_deleted_tables :
    diffDeletedTables (fromSchema.map normalized) (toSchema.map normalized) =
      (droppedNames fromSchema toSchema).map .deleteTable := by
  simp only [diffDeletedTables, droppedNames, table_keys_normalized, table_get_normalized,
    Option.isNone_map]

theorem whole_block_edit {name : String} {a : MigrationAction}
    (mem : a ∈ wholeBlock fromSchema toSchema name) : isEdit a = true := by
  unfold wholeBlock at mem
  split at mem
  · exact (table_action_edit (.refl _) mem).2
  · cases mem

theorem split_whole_block (createdTables : List String) (name : String) :
    (wholeBlock fromSchema toSchema name).filter (! refsCreated createdTables ·) =
        earlyBlock fromSchema toSchema createdTables (computedEdits fromSchema toSchema) name ∧
      (wholeBlock fromSchema toSchema name).filter (refsCreated createdTables ·) =
        lateBlock fromSchema toSchema createdTables name := by
  unfold wholeBlock earlyBlock lateBlock computedEdits
  split
  · exact split_table_actions createdTables (.refl _)
  · exact ⟨rfl, rfl⟩

theorem edit_not_delete {a : MigrationAction} (edit : isEdit a = true) :
    isDeleteTable a = false ∧ createdTableName a = none := by
  cases a <;> first | exact ⟨rfl, rfl⟩ | cases edit

theorem sorted_actions (created : List TableDef) (threshold : Nat) :
    sortCreateBeforeAddConstraint (sortDeleteTables
      (diffDeletedTables (fromSchema.map normalized) (toSchema.map normalized)
        ++ diffExistingTables threshold (fromSchema.map normalized) (toSchema.map normalized)
        ++ created.map createOf) (fromSchema.map normalized)) =
    created.map createOf ++ (dropOrder (droppedNames fromSchema toSchema)
        (fromSchema.map normalized)).map .deleteTable ++
      (tableKeys toSchema).flatMap (earlyBlock fromSchema toSchema (created.map (·.name))
        (computedEdits fromSchema toSchema)) ++
      (tableKeys toSchema).flatMap (lateBlock fromSchema toSchema (created.map (·.name))) := by
  have edits_only : ∀ a ∈ (tableKeys toSchema).flatMap (wholeBlock fromSchema toSchema) ++
      created.map createOf, isDeleteTable a = false := by
    intro a mem
    rcases List.mem_append.mp mem with block | creation
    · obtain ⟨name, _, here⟩ := List.mem_flatMap.mp block
      exact (edit_not_delete (whole_block_edit here)).1
    · obtain ⟨t, _, rfl⟩ := List.mem_map.mp creation
      rfl
  rw [diff_deleted_tables, diff_existing_tables, List.append_assoc, sort_delete_tables edits_only,
    ← List.append_assoc]
  generalize dropOrder (droppedNames fromSchema toSchema) (fromSchema.map normalized) = drops
  have no_creation : ∀ a ∈ drops.map MigrationAction.deleteTable ++
      (tableKeys toSchema).flatMap (wholeBlock fromSchema toSchema),
      createdTableName a = none := by
    intro a mem
    rcases List.mem_append.mp mem with drop | block
    · obtain ⟨name, _, rfl⟩ := List.mem_map.mp drop
      rfl
    · obtain ⟨name, _, here⟩ := List.mem_flatMap.mp block
      exact (edit_not_delete (whole_block_edit here)).2
  rw [sort_creations no_creation]
  generalize created.map (·.name) = createdTables
  have not_additions : ∀ a ∈ drops.map MigrationAction.deleteTable, ∀ n c,
      a ≠ .addConstraint n c := by
    intro a mem n c
    obtain ⟨name, _, rfl⟩ := List.mem_map.mp mem
    simp
  obtain ⟨drops_stay, no_late_drop⟩ := none_late createdTables not_additions
  rw [List.filter_append, List.filter_append, drops_stay, no_late_drop, List.nil_append,
    List.filter_flatMap, List.filter_flatMap,
    List.flatMap_congr fun name _ => (split_whole_block createdTables name).1,
    List.flatMap_congr fun name _ => (split_whole_block createdTables name).2]
  simp only [List.append_assoc]

theorem sorted_actions_moved {created : List TableDef} {moved : List MigrationAction}
    (rearranged : Rearranged enumChangeTable (created.map createOf ++
      (dropOrder (droppedNames fromSchema toSchema) (fromSchema.map normalized)).map .deleteTable ++
      (tableKeys toSchema).flatMap (earlyBlock fromSchema toSchema (created.map (·.name))
        (computedEdits fromSchema toSchema)) ++
      (tableKeys toSchema).flatMap (lateBlock fromSchema toSchema (created.map (·.name)))) moved) :
    ∃ edits : String → List MigrationAction,
      (∀ name t u, tableGet fromSchema name = some t → tableGet toSchema name = some u →
        (edits name).Perm (attributeEdits name t.columns u.columns)) ∧
      moved = created.map createOf ++
        (dropOrder (droppedNames fromSchema toSchema) (fromSchema.map normalized)).map .deleteTable ++
        (tableKeys toSchema).flatMap
          (earlyBlock fromSchema toSchema (created.map (·.name)) edits) ++
        (tableKeys toSchema).flatMap (lateBlock fromSchema toSchema (created.map (·.name))) := by
  obtain ⟨blocks, rfl, blocks_moved⟩ := rearranged.split_middle (by
    intro a mem
    rcases List.mem_append.mp mem with creation | drop
    · obtain ⟨t, _, rfl⟩ := List.mem_map.mp creation
      rfl
    · obtain ⟨name, _, rfl⟩ := List.mem_map.mp drop
      rfl) (by
    intro a mem
    obtain ⟨name, _, here⟩ := List.mem_flatMap.mp mem
    unfold lateBlock at here
    split at here
    · obtain ⟨c, _, rfl⟩ := List.mem_map.mp here
      rfl
    · cases here)
  obtain ⟨edits, perm, rfl⟩ := early_blocks_moved blocks_moved
  exact ⟨edits, perm, rfl⟩

theorem computed_edits_perm (name : String) (t u : TableDef)
    (here : tableGet fromSchema name = some t) (there : tableGet toSchema name = some u) :
    (computedEdits fromSchema toSchema name).Perm (attributeEdits name t.columns u.columns) := by
  rw [computedEdits, here, there]

theorem diff_schemas_sorted {plan : MigrationPlan}
    (ok : diffSchemas fromSchema toSchema = .ok plan) :
    ∃ created sorted, Planned fromSchema toSchema created (computedEdits fromSchema toSchema) sorted ∧
      plan.actions = sortEnumDefaultDependencies sorted (fromSchema.map normalized) := by
  unfold diffSchemas diffSchemasWith at ok
  simp only [bind, Except.bind, pure, Except.pure] at ok
  split at ok
  · cases ok
  rename_i valid
  have nodup := (validate_columns_iff _).mp valid
  cases from_normal : normalizeSchema fromSchema with
  | error e => simp [from_normal] at ok
  | ok fromNormalized =>
  cases to_normal : normalizeSchema toSchema with
  | error e => simp [from_normal, to_normal] at ok
  | ok toNormalized =>
  have from_regular := normalize_schema_ok
    (fun t mem => nodup t (List.mem_append_left _ mem)) from_normal
  have to_regular := normalize_schema_ok
    (fun t mem => nodup t (List.mem_append_right _ mem)) to_normal
  obtain rfl := Except.ok.inj (from_normal.symm.trans (normalize_schema_regular from_regular))
  obtain rfl := Except.ok.inj (to_normal.symm.trans (normalize_schema_regular to_regular))
  cases creates : diffCreatedTables (fromSchema.map normalized) (toSchema.map normalized)
      toSchema with
  | error e => simp [from_normal, to_normal, creates] at ok
  | ok creations =>
  simp only [from_normal, to_normal, creates] at ok
  obtain rfl := Except.ok.inj ok
  obtain ⟨created, rfl, mem_created, created_nodup, created_order⟩ := diff_created_tables creates
  refine ⟨created, sortCreateBeforeAddConstraint (sortDeleteTables
    (diffDeletedTables (fromSchema.map normalized) (toSchema.map normalized)
      ++ diffExistingTables diffParTableThreshold (fromSchema.map normalized)
        (toSchema.map normalized)
      ++ created.map createOf) (fromSchema.map normalized)), ?_, by dsimp only⟩
  exact ⟨from_regular, to_regular, mem_created, created_nodup, created_order,
    computed_edits_perm, sorted_actions created diffParTableThreshold⟩

theorem diff_schemas_planned {plan : MigrationPlan}
    (ok : diffSchemas fromSchema toSchema = .ok plan) :
    ∃ created edits, Planned fromSchema toSchema created edits plan.actions := by
  obtain ⟨created, sorted, planned, last⟩ := diff_schemas_sorted ok
  have rearranged := sort_enum_rearranged sorted (fromSchema.map normalized)
  rw [← last, planned.actions_eq] at rearranged
  obtain ⟨edits, edits_perm, moved⟩ := sorted_actions_moved rearranged
  exact ⟨created, edits, planned.from_regular, planned.to_regular, planned.mem_created,
    planned.created_nodup, planned.created_order, edits_perm, moved⟩

end Whole

end Vespertide
