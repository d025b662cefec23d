import Vespertide.ColumnInvariants

/-!
Well-formed schemas under replay. Three actions can break the shape of a schema
although their payload is in order: a column renamed to the name of another one,
a dropped column that shortens the local side of a composite foreign key, and an
added column that makes normalisation promote a declaration of an older one.
-/
namespace Vespertide
open AppendMissing

/-- A foreign key pairs its columns with as many referenced columns. -/
def TableConstraint.Aligned : TableConstraint → Prop
  | .foreignKey _ columns _ refColumns _ _ _ => columns.length = refColumns.length
  | _ => True

instance : DecidablePred TableConstraint.Aligned
  | .foreignKey _ columns _ refColumns _ _ _ =>
      inferInstanceAs (Decidable (columns.length = refColumns.length))
  | .primaryKey _ _ _ => .isTrue trivial
  | .unique _ _ _ => .isTrue trivial
  | .check _ _ _ => .isTrue trivial
  | .index _ _ => .isTrue trivial

def ColumnDef.DeclaresAligned (c : ColumnDef) : Prop := ∀ x ∈ foreignKeyCandidate c, x.Aligned

structure TableWellFormed (t : TableDef) : Prop where
  columns : t.columnNames.Nodup
  foreignKeys : ∀ c ∈ t.constraints, c.Aligned

structure WellFormed (schema : Schema) : Prop where
  names : TableNamesNodup schema
  tables : ∀ t ∈ schema, TableWellFormed t

def PayloadWellFormed : MigrationAction → Prop
  | .createTable _ columns constraints =>
      (columns.map (·.name)).Nodup ∧ (∀ c ∈ constraints, c.Aligned) ∧
        ∀ c ∈ columns, c.DeclaresAligned
  | .addColumn _ column _ => column.DeclaresAligned
  | .addConstraint _ constraint => constraint.Aligned
  | .replaceConstraint _ _ new => new.Aligned
  | _ => True

/-- A rename meets no other column of its new name, and a dropped column takes along every
    foreign key it is part of. -/
def TableDef.KeepsShape (t : TableDef) : MigrationAction → Prop
  | .renameColumn _ old new => new = old ∨ new ∉ t.columnNames
  | .deleteColumn _ column => ∀ c ∈ t.constraints, (referenceOf c).isSome → column ∈ c.columns →
      ∀ x ∈ c.columns, x = column
  | _ => True

/-- Of the declarations that an added column gets promoted, those of older columns are aligned. -/
def TableDef.PromotesAligned (t : TableDef) : MigrationAction → Prop
  | .addColumn _ _ _ => ∀ c ∈ t.columns, ∀ x ∈ foreignKeyCandidate c,
      ¬ Covered covers t.constraints x → x.Aligned
  | _ => True

def KeepsShape (schema : Schema) (a : MigrationAction) : Prop :=
  ∀ t, tableAt schema (actionTable a) = some t → t.KeepsShape a

def PromotesAligned (schema : Schema) (a : MigrationAction) : Prop :=
  ∀ t, tableAt schema (actionTable a) = some t → t.PromotesAligned a

theorem aligned_of_no_reference {c : TableConstraint} (none_there : referenceOf c = none) :
    c.Aligned := by
  cases c with
  | foreignKey name columns refTable refColumns onDelete onUpdate strategy => cases none_there
  | _ => trivial

/-! One table -/

section Table
variable {t : TableDef}

theorem promoted_foreign_key (nodup : t.columnNames.Nodup) (x : TableConstraint) :
    (x ∈ missing covers (candidates t.columns) t.constraints ∧ (referenceOf x).isSome) ↔
      ∃ c ∈ t.columns, foreignKeyCandidate c = some x ∧ ¬ Covered covers t.constraints x := by
  constructor
  · intro ⟨added, refers⟩
    obtain ⟨reference, refers⟩ := Option.isSome_iff_exists.mp refers
    obtain ⟨c, mem, declared⟩ := foreign_key_candidate (missing_subset added) refers
    exact ⟨c, mem, declared, missing_uncovered added⟩
  · intro ⟨c, mem, declared, uncovered⟩
    have known : x ∈ candidates t.columns := by
      simp only [candidates, List.mem_append, List.mem_filterMap]
      exact .inl (.inr ⟨c, mem, declared⟩)
    have covered : Covered covers (promoted t) x :=
      append_missing_covers candidate_covers_itself x known
    obtain ⟨e, here, covering⟩ := covered
    obtain ⟨⟨reference, refers⟩, columns⟩ := (candidate_covered declared e).mp covering
    rw [promoted, append_missing_eq, List.mem_append] at here
    rcases here with old | added
    · exact absurd ⟨e, old, covering⟩ uncovered
    · -- only the column itself declares a foreign key on itself alone
      obtain ⟨d, there, declares⟩ := foreign_key_candidate (missing_subset added) refers
      obtain ⟨_, own⟩ := (candidate_covered declares e).mp
        (candidate_covers_itself e (missing_subset added))
      have same : d.name = c.name := by simpa using own.symm.trans columns
      obtain rfl := candidate_unique nodup there mem same declares declared
      exact ⟨added, by simp [refers]⟩

theorem promoted_aligned (nodup : t.columnNames.Nodup) (aligned : ∀ c ∈ t.constraints, c.Aligned) :
    (∀ c ∈ promoted t, c.Aligned) ↔ ∀ c ∈ t.columns, ∀ x ∈ foreignKeyCandidate c,
      ¬ Covered covers t.constraints x → x.Aligned := by
  unfold promoted
  rw [append_missing_eq]
  constructor
  · intro all c mem x declared uncovered
    have added := (promoted_foreign_key nodup x).mpr ⟨c, mem, declared, uncovered⟩
    exact all x (List.mem_append_right _ added.1)
  · intro declared x mem
    rcases List.mem_append.mp mem with old | added
    · exact aligned x old
    · cases refers : referenceOf x with
      | none => exact aligned_of_no_reference refers
      | some reference =>
        obtain ⟨c, here, candidate, uncovered⟩ :=
          (promoted_foreign_key nodup x).mp ⟨added, by simp [refers]⟩
        exact declared c here x candidate uncovered

theorem rename_refs_length (old new : String) (columns : List String) :
    (renameColumnRefs old new columns).length = columns.length := List.length_map _

theorem rename_aligned (old new : String) (c : TableConstraint) :
    (renameColumnInConstraint old new c).Aligned ↔ c.Aligned := by
  cases c with
  | foreignKey name columns refTable refColumns onDelete onUpdate strategy =>
    simp [renameColumnInConstraint, TableConstraint.Aligned, rename_refs_length]
  | _ => rfl

theorem renamed_column_names (old new : String) {columns : List ColumnDef}
    (nodup : (columns.map (·.name)).Nodup) :
    (mapFirstColumn old (fun c => { c with name := new }) columns).map (·.name) =
      (columns.map (·.name)).map fun name => if name = old then new else name := by
  rw [map_first_column nodup, List.map_map, List.map_map]
  apply List.map_congr_left
  intro c _
  simp only [Function.comp_apply]
  split <;> rfl

theorem renamed_names_nodup {old new : String} {names : List String} (nodup : names.Nodup)
    (present : old ∈ names) :
    (names.map fun name => if name = old then new else name).Nodup ↔ new = old ∨ new ∉ names := by
  constructor
  · intro renamed
    by_contra clash
    obtain ⟨other, taken⟩ := not_or.mp clash
    have same := List.inj_on_of_nodup_map renamed present (not_not.mp taken)
    exact other (same (by simp [other])).symm
  · intro free
    refine (List.nodup_map_iff_inj_on nodup).mpr ?_
    intro a here b there same
    split at same <;> split at same <;> grind

theorem rename_column_well_formed {table old new : String} (well_formed : TableWellFormed t)
    (ok : (renameColumnIn table old new t).error = none) :
    TableWellFormed (renameColumnIn table old new t).state ↔ new = old ∨ new ∉ t.columnNames := by
  unfold renameColumnIn at ok ⊢
  split
  · rename_i present
    have names := renamed_column_names old new well_formed.columns
    constructor
    · intro renamed
      have nodup := renamed.columns
      simp only [Outcome.ok, TableDef.columnNames, names] at nodup
      exact (renamed_names_nodup well_formed.columns present).mp nodup
    · intro free
      refine ⟨?_, ?_⟩
      · simp only [Outcome.ok, TableDef.columnNames, names]
        exact (renamed_names_nodup well_formed.columns present).mpr free
      · intro c mem
        obtain ⟨c', before, rfl⟩ := List.mem_map.mp mem
        exact (rename_aligned old new c').mpr (well_formed.foreignKeys c' before)
  · rename_i absent
    simp [absent, Outcome.fail] at ok

/-- What a dropped column leaves of an aligned foreign key is aligned only if it leaves all
    or nothing. -/
theorem dropped_aligned {column : String} {c : TableConstraint} (aligned : c.Aligned) :
    (∀ x ∈ dropColumnFromConstraint column c, x.Aligned) ↔
      ((referenceOf c).isSome → column ∈ c.columns → ∀ x ∈ c.columns, x = column) := by
  cases c with
  | foreignKey name columns refTable refColumns onDelete onUpdate strategy =>
    simp only [dropColumnFromConstraint, referenceOf, Option.isSome_some, TableConstraint.columns,
      forall_const]
    simp only [TableConstraint.Aligned] at aligned
    have nothing : columns.filter (· ≠ column) = [] ↔ ∀ x ∈ columns, x = column := by simp
    by_cases empty : columns.filter (· ≠ column) = []
    · rw [if_pos empty]
      exact ⟨fun _ _ => nothing.mp empty, fun _ x kept => by cases kept⟩
    · simp only [empty, ↓reduceIte, Option.mem_def, Option.some.injEq, forall_eq',
        TableConstraint.Aligned, ← nothing, imp_false]
      have whole : (columns.filter (· ≠ column)).length = columns.length ↔ column ∉ columns := by
        rw [List.length_filter_eq_length_iff]
        grind
      rw [← aligned, whole]
  | primaryKey autoIncrement columns strategy =>
    simp only [dropColumnFromConstraint, referenceOf]
    split <;> simp [TableConstraint.Aligned]
  | unique name columns strategy =>
    simp only [dropColumnFromConstraint, referenceOf]
    split <;> simp [TableConstraint.Aligned]
  | index name columns =>
    simp only [dropColumnFromConstraint, referenceOf]
    split <;> simp [TableConstraint.Aligned]
  | check name expr strategy => simp [dropColumnFromConstraint, referenceOf, TableConstraint.Aligned]

theorem delete_column_well_formed {table column : String} (well_formed : TableWellFormed t)
    (ok : (deleteColumnFrom table column t).error = none) :
    TableWellFormed (deleteColumnFrom table column t).state ↔
      t.KeepsShape (.deleteColumn table column) := by
  simp only [deleteColumnFrom] at ok ⊢
  split
  · rename_i same
    rw [if_pos same] at ok
    cases ok
  · have columns : ((t.columns.filter (·.name ≠ column)).map (·.name)).Nodup :=
      (List.filter_sublist.map _).nodup well_formed.columns
    have each : ∀ c ∈ t.constraints, (∀ x ∈ dropColumnFromConstraint column c, x.Aligned) ↔ _ :=
      fun c mem => dropped_aligned (well_formed.foreignKeys c mem)
    simp only [TableDef.KeepsShape]
    constructor
    · intro left c mem
      apply (each c mem).mp
      intro x kept
      exact left.foreignKeys x (List.mem_filterMap.mpr ⟨c, mem, kept⟩)
    · intro keeps
      refine ⟨columns, ?_⟩
      intro x mem
      obtain ⟨c, here, kept⟩ := List.mem_filterMap.mp mem
      exact (each c here).mpr (keeps c here) x kept

theorem add_column_well_formed {table : String} {column : ColumnDef}
    (well_formed : TableWellFormed t) (declared : column.DeclaresAligned)
    (ok : (addColumnTo table column t).error = none) :
    TableWellFormed (addColumnTo table column t).state ↔
      t.PromotesAligned (.addColumn table column none) := by
  by_cases present : column.name ∈ t.columnNames
  · simp [add_column_present present, Outcome.fail] at ok
  · by_cases accepted : Normalizable (t.columns ++ [column])
    · rw [add_column_to present accepted]
      have names : (t.columns ++ [column]).map (·.name) = t.columnNames ++ [column.name] := by
        simp [TableDef.columnNames]
      have nodup : ((t.columns ++ [column]).map (·.name)).Nodup := by
        rw [names]
        exact List.nodup_append.mpr ⟨well_formed.columns, by simp, by grind⟩
      have aligned := promoted_aligned (t := { t with columns := t.columns ++ [column] }) nodup
        well_formed.foreignKeys
      have added : ∀ x ∈ foreignKeyCandidate column, ¬ Covered covers t.constraints x →
          x.Aligned := fun x own _ => declared x own
      simp only [TableDef.PromotesAligned]
      constructor
      · intro whole c mem
        exact aligned.mp whole.foreignKeys c (List.mem_append_left _ mem)
      · intro promotes
        refine ⟨nodup, aligned.mpr ?_⟩
        intro c mem
        rcases List.mem_append.mp mem with older | new
        · exact promotes c older
        · obtain rfl := List.mem_singleton.mp new
          exact added
    · exact absurd ok (add_column_refused table present accepted).2

theorem on_column_well_formed {table column : String} {f : ColumnDef → ColumnDef}
    (named : ∀ c, (f c).name = c.name) (well_formed : TableWellFormed t) :
    TableWellFormed (onColumn table column f t).state := by
  unfold onColumn
  split
  · refine ⟨?_, well_formed.foreignKeys⟩
    have names : (mapFirstColumn column f t.columns).map (·.name) = t.columnNames := by
      rw [map_first_column well_formed.columns, List.map_map]
      apply List.map_congr_left
      intro c _
      simp only [Function.comp_apply]
      split <;> simp [named]
    simp only [Outcome.ok, TableDef.columnNames, names]
    exact well_formed.columns
  · exact well_formed

theorem cleared_well_formed (well_formed : TableWellFormed t) (table : String)
    (constraint : TableConstraint) {constraints : List TableConstraint}
    (aligned : ∀ c ∈ constraints, c.Aligned) :
    TableWellFormed { t with
      constraints
      columns := clearInlineConstraintFields table constraint t.columns } := by
  refine ⟨?_, aligned⟩
  simp only [TableDef.columnNames]
  rw [clear_inline_eq table constraint well_formed.columns, List.map_map]
  have names : (fun c : ColumnDef => c.name) ∘ clearColumn table constraint = (·.name) := by
    funext c
    exact clear_column_name table constraint c
  rw [names]
  exact well_formed.columns

theorem edit_well_formed {a : MigrationAction} (edit : isEdit a = true)
    (well_formed : TableWellFormed t) (payload : PayloadWellFormed a)
    (ok : (tableEdit a t).error = none) :
    TableWellFormed (tableEdit a t).state ↔ t.KeepsShape a ∧ t.PromotesAligned a := by
  cases a with
  | createTable table columns constraints => cases edit
  | deleteTable table => cases edit
  | renameTable old new => cases edit
  | rawSql sql => cases edit
  | dataMigration sql description => cases edit
  | addColumn table column fillWith =>
    have kept := add_column_well_formed well_formed payload ok
    exact ⟨fun whole => ⟨trivial, kept.mp whole⟩, fun both => kept.mpr both.2⟩
  | renameColumn table old new =>
    have kept := rename_column_well_formed well_formed ok
    exact ⟨fun whole => ⟨kept.mp whole, trivial⟩, fun both => kept.mpr both.1⟩
  | deleteColumn table column =>
    have kept := delete_column_well_formed well_formed ok
    exact ⟨fun whole => ⟨kept.mp whole, trivial⟩, fun both => kept.mpr both.1⟩
  | addConstraint table constraint =>
    refine iff_of_true ?_ ⟨trivial, trivial⟩
    simp only [tableEdit, addConstraintTo, Outcome.ok]
    split
    · exact well_formed
    · refine ⟨well_formed.columns, ?_⟩
      intro c mem
      rcases List.mem_append.mp mem with old | new
      · exact well_formed.foreignKeys c old
      · exact List.mem_singleton.mp new ▸ payload
  | removeConstraint table constraint =>
    refine iff_of_true (cleared_well_formed well_formed table constraint ?_) ⟨trivial, trivial⟩
    intro c mem
    exact well_formed.foreignKeys c (List.mem_of_mem_filter mem)
  | replaceConstraint table old new =>
    simp only [tableEdit, replaceConstraintIn] at ok ⊢
    split
    · rename_i present
      refine iff_of_true (cleared_well_formed well_formed table old ?_) ⟨trivial, trivial⟩
      intro c mem
      rcases (replace_first_mem present c).mp mem with rfl | kept
      · exact payload
      · exact well_formed.foreignKeys c (List.mem_of_mem_erase kept)
    · rename_i absent
      simp [absent, Outcome.fail] at ok
  | _ => exact iff_of_true (on_column_well_formed (fun _ => rfl) well_formed) ⟨trivial, trivial⟩

theorem created_well_formed {table : String} {columns : List ColumnDef}
    {constraints : List TableConstraint}
    (payload : PayloadWellFormed (.createTable table columns constraints))
    (normal : (TableDef.mk table none columns constraints).normalize = .ok t) :
    TableWellFormed t := by
  obtain ⟨nodup, aligned, declared⟩ := payload
  obtain rfl := normalize_value normal
  have whole := promoted_aligned (t := ⟨table, none, columns, constraints⟩) nodup aligned
  refine ⟨nodup, whole.mpr ?_⟩
  intro c mem x own _
  exact declared c mem x own

end Table

/-! The whole schema -/

theorem replaced_well_formed {before after : List TableDef} {t t' : TableDef}
    (well_formed : WellFormed (before ++ t :: after)) (named : t'.name = t.name) :
    WellFormed (before ++ t' :: after) ↔ TableWellFormed t' := by
  constructor
  · intro whole
    exact whole.tables t' (by simp)
  · intro own
    refine ⟨?_, ?_⟩
    · have names := well_formed.names
      simp only [TableNamesNodup, List.map_append, List.map_cons, named] at names ⊢
      exact names
    · intro u mem
      rcases List.mem_append.mp mem with earlier | later
      · exact well_formed.tables u (List.mem_append_left _ earlier)
      · rcases List.mem_cons.mp later with rfl | later
        · exact own
        · exact well_formed.tables u (List.mem_append_right _ (List.mem_cons_of_mem t later))

theorem retarget_aligned (old new : String) (c : TableConstraint) :
    (retargetConstraint old new c).Aligned ↔ c.Aligned := by
  cases c <;> rfl

theorem renamed_well_formed {schema : Schema} {old new : String} (well_formed : WellFormed schema)
    (ok : (renameTable schema old new).error = none) :
    WellFormed (renameTable schema old new).state := by
  have applied : (renameTable schema old new).toExcept = .ok (renameTable schema old new).state := by
    simp [Outcome.toExcept, ok]
  refine ⟨rename_nodup well_formed.names applied, ?_⟩
  intro u mem
  simp only [renameTable] at ok mem
  split at mem
  · rename_i taken
    rw [if_pos taken] at ok
    cases ok
  · rename_i free
    rw [if_neg free] at ok
    cases found : tableAt schema old with
    | none => simp [on_table_missing found, Outcome.fail] at ok
    | some t =>
      obtain ⟨named, before, after, rfl, others⟩ := table_at_split found
      rw [on_table_split named others] at mem
      obtain ⟨u', here, rfl⟩ := List.mem_map.mp mem
      have own : TableWellFormed u' := by
        rcases List.mem_append.mp here with earlier | later
        · exact well_formed.tables u' (List.mem_append_left _ earlier)
        · rcases List.mem_cons.mp later with rfl | later
          · obtain ⟨columns, keys⟩ := well_formed.tables t (by simp)
            exact ⟨columns, keys⟩
          · exact well_formed.tables u' (List.mem_append_right _ (List.mem_cons_of_mem t later))
      refine ⟨own.columns, ?_⟩
      intro c kept
      obtain ⟨c', old_one, rfl⟩ := List.mem_map.mp kept
      exact (retarget_aligned old new c').mpr (own.foreignKeys c' old_one)

theorem create_well_formed {schema : Schema} {table : String} {columns : List ColumnDef}
    {constraints : List TableConstraint} (well_formed : WellFormed schema)
    (payload : PayloadWellFormed (.createTable table columns constraints))
    (ok : (createTable schema table columns constraints).error = none) :
    WellFormed (createTable schema table columns constraints).state := by
  have applied : (applyAction schema (.createTable table columns constraints)).toExcept =
      .ok (createTable schema table columns constraints).state := to_except_ok.mpr ⟨ok, rfl⟩
  refine ⟨apply_action_nodup well_formed.names applied, ?_⟩
  simp only [createTable] at ok ⊢
  split
  · exact well_formed.tables
  · rename_i free
    rw [if_neg free] at ok
    cases normal : (TableDef.mk table none columns constraints).normalize with
    | error e => simp [normal, Outcome.fail] at ok
    | ok t =>
      intro u mem
      rcases List.mem_append.mp mem with older | new
      · exact well_formed.tables u older
      · exact List.mem_singleton.mp new ▸ created_well_formed payload normal

theorem deleted_well_formed {schema : Schema} (well_formed : WellFormed schema) (table : String)
    (ok : (deleteTable schema table).error = none) :
    WellFormed (deleteTable schema table).state := by
  simp only [deleteTable] at ok ⊢
  split
  · rename_i same
    rw [if_pos same] at ok
    cases ok
  · refine ⟨(List.filter_sublist.map _).nodup well_formed.names, ?_⟩
    intro t mem
    exact well_formed.tables t (List.mem_of_mem_filter mem)

/-- One step: which actions, their payload in order, keep a schema well formed. -/
theorem apply_action_well_formed_iff {schema : Schema} {a : MigrationAction}
    (well_formed : WellFormed schema) (payload : PayloadWellFormed a)
    (ok : (applyAction schema a).error = none) :
    WellFormed (applyAction schema a).state ↔ KeepsShape schema a ∧ PromotesAligned schema a := by
  by_cases edit : isEdit a = true
  · rw [edit_applies edit] at ok ⊢
    cases found : tableAt schema (actionTable a) with
    | none => simp [on_table_missing found, Outcome.fail] at ok
    | some t =>
      obtain ⟨named, before, after, rfl, others⟩ := table_at_split found
      rw [on_table_split named others] at ok ⊢
      rw [replaced_well_formed well_formed (table_edit_name ok),
        edit_well_formed edit (well_formed.tables t (by simp)) payload ok]
      simp [KeepsShape, PromotesAligned, found]
  · have kept : KeepsShape schema a ∧ PromotesAligned schema a := by
      cases a <;> first
        | exact absurd rfl edit
        | exact ⟨fun _ _ => trivial, fun _ _ => trivial⟩
    refine iff_of_true ?_ kept
    cases a with
    | createTable table columns constraints => exact create_well_formed well_formed payload ok
    | deleteTable table =>
      exact deleted_well_formed well_formed table ok
    | renameTable old new => exact renamed_well_formed well_formed ok
    | rawSql sql => exact well_formed
    | dataMigration sql description => exact well_formed
    | _ => exact absurd rfl edit

/-! The declarations of the columns -/

theorem declares_aligned_none {c : ColumnDef} (plain : c.foreignKey = none) : c.DeclaresAligned := by
  intro x declared
  simp [foreignKeyCandidate, plain] at declared

theorem declares_aligned_congr {c d : ColumnDef} (held : c.DeclaresAligned)
    (same : d.foreignKey = c.foreignKey) : d.DeclaresAligned := by
  unfold ColumnDef.DeclaresAligned at held ⊢
  rw [foreign_key_candidate_eq] at held ⊢
  rw [declared_reference_congr same]
  cases declared : c.declaredReference <;> simp_all [TableConstraint.Aligned]

theorem declares_aligned_closed : ClosedUnderEdits ColumnDef.DeclaresAligned where
  attributes c d same held := declares_aligned_congr held (congrArg (·.foreignKey) same)
  renamed c new held := declares_aligned_congr held rfl
  primaryKey c held := declares_aligned_congr held rfl
  foreignKey c _ := declares_aligned_none rfl
  unique c held := declares_aligned_congr held rfl
  index c held := declares_aligned_congr held rfl
  uniqueName c name held := declares_aligned_congr held (by rw [clear_unique_name_eq])
  indexName c name held := declares_aligned_congr held (by rw [clear_index_name_eq])

theorem payload_declares {a : MigrationAction} (payload : PayloadWellFormed a) :
    ∀ c ∈ newColumns a, c.DeclaresAligned := by
  cases a with
  | createTable table columns constraints => exact payload.2.2
  | addColumn table column fillWith => exact List.forall_mem_singleton.mpr payload
  | _ => simp [newColumns]

/-! A whole replay -/

/-- What a replay of well-formed payloads keeps: with the shape, the declarations that
    a later column would get promoted. -/
structure Settled (schema : Schema) : Prop where
  wellFormed : WellFormed schema
  declared : ∀ t ∈ schema, ∀ c ∈ t.columns, c.DeclaresAligned

theorem settled_promotes {schema : Schema} (settled : Settled schema) (a : MigrationAction) :
    PromotesAligned schema a := by
  intro t found
  cases a with
  | addColumn table column fillWith =>
    intro c mem x own _
    exact settled.declared t (table_at_name found).1 c mem x own
  | _ => trivial

theorem settled_step (schema : Schema) (a : MigrationAction) (settled : Settled schema)
    (keeps : PayloadWellFormed a ∧ KeepsShape schema a)
    (ok : (applyAction schema a).error = none) : Settled (applyAction schema a).state := by
  obtain ⟨payload, shape⟩ := keeps
  have step := apply_action_well_formed_iff settled.wellFormed payload ok
  exact ⟨step.mpr ⟨shape, settled_promotes settled a⟩,
    action_columns declares_aligned_closed settled.declared (payload_declares payload)⟩

theorem replay_well_formed (schema : Schema) :
    (∀ a, WellFormed schema → PayloadWellFormed a → (applyAction schema a).error = none →
      (WellFormed (applyAction schema a).state ↔
        KeepsShape schema a ∧ PromotesAligned schema a)) ∧
    ∀ plans, Along (fun s a => PayloadWellFormed a ∧ KeepsShape s a) []
        (plans.flatMap MigrationPlan.actions) →
      schemaFromPlans plans = .ok schema → WellFormed schema := by
  constructor
  · intro a well_formed payload ok
    exact apply_action_well_formed_iff well_formed payload ok
  · intro plans along replayed
    rw [schema_from_plans_actions] at replayed
    have start : Settled [] := ⟨⟨List.nodup_nil, by simp⟩, by simp⟩
    exact (actions_preserve settled_step start along replayed).wellFormed

/-! A line whose key refers to two columns of an order -/

instance (c : ColumnDef) : Decidable c.DeclaresAligned :=
  inferInstanceAs (Decidable (∀ x ∈ foreignKeyCandidate c, x.Aligned))

instance (t : TableDef) : Decidable (TableWellFormed t) :=
  decidable_of_iff (t.columnNames.Nodup ∧ ∀ c ∈ t.constraints, c.Aligned)
    ⟨fun both => ⟨both.1, both.2⟩, fun whole => ⟨whole.columns, whole.foreignKeys⟩⟩

instance (schema : Schema) : Decidable (WellFormed schema) :=
  decidable_of_iff (TableNamesNodup schema ∧ ∀ t ∈ schema, TableWellFormed t)
    ⟨fun both => ⟨both.1, both.2⟩, fun whole => ⟨whole.names, whole.tables⟩⟩

instance : DecidablePred PayloadWellFormed
  | .createTable _ columns constraints => inferInstanceAs (Decidable
      ((columns.map (·.name)).Nodup ∧ (∀ c ∈ constraints, c.Aligned) ∧
        ∀ c ∈ columns, c.DeclaresAligned))
  | .addColumn _ column _ => inferInstanceAs (Decidable column.DeclaresAligned)
  | .addConstraint _ constraint => inferInstanceAs (Decidable constraint.Aligned)
  | .replaceConstraint _ _ new => inferInstanceAs (Decidable new.Aligned)
  | .deleteTable _ | .renameColumn _ _ _ | .deleteColumn _ _ | .modifyColumnType _ _ _ _ _ _
  | .modifyColumnNullable _ _ _ _ _ | .modifyColumnDefault _ _ _ _ | .modifyColumnComment _ _ _
  | .removeConstraint _ _ | .remapEnumValues _ _ _ | .renameTable _ _ | .rawSql _
  | .dataMigration _ _ => .isTrue trivial

def orderLine : TableDef :=
  ⟨"line", none, [.new "shop" (.simple .integer) false, .new "number" (.simple .integer) false,
    .new "item" (.simple .integer) false],
    [.foreignKey none ["shop", "number"] "order" ["shop", "number"] none none .default]⟩

/-- The deleted column is half of a foreign key, which stays with two referenced columns. -/
theorem halved_key_ill_formed : ¬ (WellFormed [orderLine] →
    PayloadWellFormed (.deleteColumn "line" "number") →
    (applyAction [orderLine] (.deleteColumn "line" "number")).error = none →
    WellFormed (applyAction [orderLine] (.deleteColumn "line" "number")).state) := by
  decide

def orderLineHistory : List MigrationPlan :=
  [⟨"", none, none, 1, [.createTable "line" orderLine.columns orderLine.constraints,
    .deleteColumn "line" "item"]⟩]

theorem whole_key_well_formed :
    WellFormed (applyAction [orderLine] (.deleteColumn "line" "item")).state ∧
    WellFormed [{ orderLine with columns := orderLine.columns.take 2 }] := by
  constructor
  · refine ((replay_well_formed [orderLine]).1 (.deleteColumn "line" "item") (by decide) trivial
      (by decide)).mpr ⟨?_, fun _ _ => trivial⟩
    intro t found
    obtain rfl : orderLine = t := Option.some.inj found
    simp only [TableDef.KeepsShape]
    decide
  · refine (replay_well_formed _).2 orderLineHistory ⟨⟨by decide, ?_⟩, ⟨trivial, ?_⟩, trivial⟩ (by decide)
    · intro t found
      cases found
    · intro t found
      obtain rfl : orderLine = t := Option.some.inj found
      simp only [TableDef.KeepsShape]
      decide

end Vespertide
