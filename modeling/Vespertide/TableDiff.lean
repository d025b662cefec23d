import Vespertide.KeptTable

/-!
The difference of one table, replayed on it. It gets through exactly when every
constraint it replaces is still there once the columns are done, and what it
leaves has a closed form.
-/
namespace Vespertide
open Components AppendMissing

section Parts
variable (name : String) (t u : TableDef)

def replacements : List MigrationAction :=
  (diffReplacedConstraints name (promoted t) u.constraints).actions

def replaced : List TableConstraint := replacedOlds name (promoted t) u.constraints

def removals : List TableConstraint :=
  removedOf name (promoted t) u.constraints (droppedColumns t u)

def additions : List TableConstraint := addedOf name (promoted t) u.constraints

/-- The column actions of the difference, with the attribute changes in some order. -/
def columnActions (edits : List MigrationAction) : List MigrationAction :=
  (droppedColumns t u).map (.deleteColumn name ·) ++ edits ++
    (addedColumns t u).map (.addColumn name · none)

def tableActions (edits : List MigrationAction) (added : List TableConstraint) :
    List MigrationAction :=
  columnActions name t u edits ++ replacements name t u ++
    (removals name t u).map (.removeConstraint name ·) ++ added.map (.addConstraint name ·)

def columnsDone : TableDef :=
  { t with
    columns := (keptColumns t u).map (editAll (attributeEdits name t.columns u.columns)) ++
      addedColumns t u
    constraints := carriedConstraints t u }

end Parts

/-- A table as replay and normalisation need it. -/
structure Regular (t : TableDef) : Prop where
  nodup : t.columnNames.Nodup
  inlines : ∀ c ∈ t.columns, InlineOk c

variable {name : String} {t u : TableDef}

theorem diff_existing_shape {fromTables : List TableDef}
    (found : tableGet fromTables name = some { t with constraints := promoted t }) :
    diffExistingTable name fromTables u = tableActions name t u
      (attributeEdits name t.columns u.columns) (additions name t u) := by
  have added : diffAddedColumns name t.columns u.columns =
      (addedColumns t u).map (.addColumn name · none) := by
    simp only [diffAddedColumns, addedColumns, List.map_filterMap]
    refine List.filterMap_congr fun col _ => ?_
    cases columnGet u.columns col with
    | none => rfl
    | some toDef => dsimp only; split <;> rfl
  simp only [diffExistingTable, found, diffColumns, diffDeletedColumns, diffConstraints, added,
    diff_removed_eq, diff_added_eq]
  simp only [tableActions, columnActions, attributeEdits, replacements, removals, additions,
    droppedColumns, List.append_assoc]

/-! The column actions -/

theorem kept_edits {edits : List MigrationAction}
    (perm : edits.Perm (attributeEdits name t.columns u.columns)) :
    ∀ a ∈ edits, ∃ column f, columnEdit a = some (column, f) ∧
      column ∈ (keptColumns t u).map (·.name) := by
  intro a mem
  obtain ⟨fromDef, toDef, here, there, edit⟩ := attribute_edit_of (perm.mem_iff.mp mem)
  obtain ⟨f, about⟩ := column_edit_of edit
  obtain ⟨from_mem, from_name⟩ := KeyedView.get_some here
  refine ⟨toDef.name, f, about, List.mem_map.mpr ⟨fromDef, mem_kept.mpr ⟨from_mem, ?_⟩, from_name⟩⟩
  exact from_name ▸ List.mem_map_of_mem (KeyedView.get_some there).1

theorem kept_declarations (edits : List MigrationAction) :
    ((keptColumns t u).map (editAll edits)).map ColumnDef.declarations =
      (keptColumns t u).map ColumnDef.declarations := by
  rw [List.map_map]
  exact List.map_congr_left fun c _ => edit_all_declarations edits c

theorem kept_names (edits : List MigrationAction) :
    ((keptColumns t u).map (editAll edits)).map (·.name) = (keptColumns t u).map (·.name) := by
  rw [List.map_map]
  exact List.map_congr_left fun c _ => edit_all_name edits c

theorem kept_inline_ok (regular : Regular t) (edits : List MigrationAction) :
    ∀ c ∈ (keptColumns t u).map (editAll edits), InlineOk c := by
  intro c mem
  obtain ⟨d, kept, rfl⟩ := List.mem_map.mp mem
  rw [← inline_ok_declarations, edit_all_declarations, inline_ok_declarations]
  exact regular.inlines d (mem_kept.mp kept).1

theorem columns_done_nodup (regular : Regular t) : (columnsDone name t u).columnNames.Nodup := by
  have names := kept_added_nodup (t := t) (u := u) regular.nodup
  rw [List.map_append] at names
  simp only [TableDef.columnNames, columnsDone, List.map_append, kept_names]
  exact names

theorem run_kept_actions (regular : Regular t) {edits : List MigrationAction}
    (perm : edits.Perm (attributeEdits name t.columns u.columns)) :
    run editStep ((droppedColumns t u).map (.deleteColumn name ·) ++ edits) t = some { t with
      columns := (keptColumns t u).map (editAll edits)
      constraints := shrunkConstraints t u } := by
  have kept_nodup : ((keptColumns t u).map (·.name)).Nodup :=
    (List.filter_sublist.map _).nodup regular.nodup
  have dropped : run editStep ((droppedColumns t u).map (.deleteColumn name ·)) t = some { t with
      columns := keptColumns t u
      constraints := shrunkConstraints t u } :=
    run_delete_columns ((KeyedView.keys_nodup _ _).filter _) fun c mem => (mem_dropped.mp mem).1
  rw [run_append, dropped, Option.bind_some]
  exact run_column_edits kept_nodup (kept_edits perm)

theorem run_added_columns (regular : Regular t) (edits : List MigrationAction)
    {added rest : List ColumnDef} (listed : addedColumns t u = added ++ rest) :
    run editStep (added.map (.addColumn name · none)) { t with
      columns := (keptColumns t u).map (editAll edits)
      constraints := shrunkConstraints t u } = some { t with
        columns := (keptColumns t u).map (editAll edits) ++ added
        constraints := if added = [] then shrunkConstraints t u
          else appendMissing covers (candidates (keptColumns t u)) (shrunkConstraints t u) } := by
  have names := kept_added_nodup (t := t) (u := u) regular.nodup
  rw [List.map_append, ← kept_names edits, ← List.map_append, listed, ← List.append_assoc,
    List.map_append] at names
  have plain : ∀ c ∈ added, c.Plain := fun c mem =>
    added_plain (t := t) (u := u) c (listed ▸ List.mem_append_left _ mem)
  rw [run_add_columns plain (List.nodup_append.mp names).1 (kept_inline_ok regular edits),
    candidates_congr (kept_declarations edits)]

theorem run_column_actions (regular : Regular t) {edits : List MigrationAction}
    (perm : edits.Perm (attributeEdits name t.columns u.columns)) :
    run editStep (columnActions name t u edits) t = some (columnsDone name t u) := by
  have same : (keptColumns t u).map (editAll edits) =
      (keptColumns t u).map (editAll (attributeEdits name t.columns u.columns)) :=
    List.map_congr_left fun c _ => edit_all_perm perm c
  rw [columnActions, run_append, run_kept_actions regular perm, Option.bind_some,
    run_added_columns regular edits (List.append_nil _).symm, same]
  rfl

/-! The constraint actions -/

theorem replacements_replace : Replaces name (promoted t) (replacements name t u) := by
  intro a mem
  obtain ⟨old, new, shape, from_baseline, _, _, fresh, _⟩ :=
    (replaced_constraints_paired name).replaces a mem
  exact ⟨old, new, shape, from_baseline, fresh⟩

theorem mem_replaced {c : TableConstraint} : c ∈ replaced name t u ↔
    c ∈ replacedAs (promoted t) u.constraints (constraintIdentityKey c) := mem_olds name

/-- Every replaced constraint is still there once the columns are done. -/
def Replaceable (t u : TableDef) : Prop :=
  ∀ c, c ∈ replacedAs (promoted t) u.constraints (constraintIdentityKey c) →
    c ∈ carriedConstraints t u

theorem replaced_count_le (c : TableConstraint) :
    (replaced name t u).count c ≤ (promoted t).count c := by
  have perm := replaced_unreplaced_perm name (promoted t) u.constraints
  have counts := perm.count_eq c
  rw [List.count_append] at counts
  have fewer : ((promoted t).filter (· ∉ u.constraints)).Sublist (promoted t) :=
    List.filter_sublist
  have filtered := fewer.count_le c
  simp only [replaced]
  omega

theorem replaceable_iff (name : String) : Replaceable t u ↔
    ∀ c, (olds (replacements name t u)).count c ≤ (carriedConstraints t u).count c := by
  constructor
  · intro carried c
    by_cases mem : c ∈ replaced name t u
    · exact (replaced_count_le c).trans
        (promoted_count_le_carried (carried c (mem_replaced.mp mem)))
    · have none_replaced : (olds (replacements name t u)).count c = 0 := List.count_eq_zero.mpr mem
      omega
  · intro enough c mem
    have present : 0 < (olds (replacements name t u)).count c :=
      List.count_pos_iff.mpr (mem_replaced.mpr mem)
    have here := enough c
    exact List.count_pos_iff.mp (by omega)

theorem run_table_actions_iff (regular : Regular t) {edits : List MigrationAction}
    (perm : edits.Perm (attributeEdits name t.columns u.columns)) (added : List TableConstraint) :
    (∃ r, run editStep (tableActions name t u edits added) t = some r) ↔ Replaceable t u := by
  have done_nodup : (columnsDone name t u).columnNames.Nodup := columns_done_nodup regular
  have replaces : (∃ t', run editStep (replacements name t u) (columnsDone name t u) = some t') ↔
      Replaceable t u :=
    (run_replaces_iff replacements_replace done_nodup).trans (replaceable_iff name).symm
  rw [← replaces]
  simp only [tableActions, run_append, run_column_actions regular perm, Option.bind_some]
  cases ran : run editStep (replacements name t u) (columnsDone name t u) with
  | none => simp
  | some t₁ =>
    obtain ⟨cleared, _⟩ := run_replaces_counts replacements_replace done_nodup ran
    obtain ⟨r, adds, _⟩ := run_adds added { t₁ with
      constraints := t₁.constraints.filter (· ∉ removals name t u)
      columns := t₁.columns.map (clearAll name (removals name t u)) }
    rw [Option.bind_some, run_removes (cleared.nodup done_nodup), Option.bind_some, adds]
    simp

/-- What the actions leave: the cleared columns, and of the constraints those that are
    not removed and either new or more often there than replaced. -/
structure TableLeft (name : String) (t u : TableDef) (added : List TableConstraint)
    (r : TableDef) : Prop where
  name_eq : r.name = t.name
  columns : r.columns = (columnsDone name t u).columns.map
    (clearAll name (replaced name t u ++ removals name t u))
  constraints : ∀ c, c ∈ r.constraints ↔
    (c ∉ removals name t u ∧ (c ∈ news (replacements name t u) ∨
      (replaced name t u).count c < (carriedConstraints t u).count c)) ∨ c ∈ added

theorem run_table_actions (regular : Regular t) {edits : List MigrationAction}
    (perm : edits.Perm (attributeEdits name t.columns u.columns)) {added : List TableConstraint}
    {r : TableDef} (ran : run editStep (tableActions name t u edits added) t = some r) :
    TableLeft name t u added r := by
  have done_nodup : (columnsDone name t u).columnNames.Nodup := columns_done_nodup regular
  simp only [tableActions, run_append, run_column_actions regular perm, Option.bind_some] at ran
  cases replaces : run editStep (replacements name t u) (columnsDone name t u) with
  | none => simp [replaces] at ran
  | some t₁ =>
    obtain ⟨cleared, counts⟩ := run_replaces_counts replacements_replace done_nodup replaces
    obtain ⟨r', adds, name_eq, columns, constraints⟩ := run_adds added { t₁ with
      constraints := t₁.constraints.filter (· ∉ removals name t u)
      columns := t₁.columns.map (clearAll name (removals name t u)) }
    rw [replaces, Option.bind_some, run_removes (cleared.nodup done_nodup), Option.bind_some,
      adds] at ran
    obtain rfl := Option.some.inj ran
    have removed : Cleared name (removals name t u) t₁ { t₁ with
        constraints := t₁.constraints.filter (· ∉ removals name t u)
        columns := t₁.columns.map (clearAll name (removals name t u)) } := ⟨rfl, rfl⟩
    refine ⟨name_eq.trans cleared.name, columns.trans (cleared.trans removed).columns, fun c => ?_⟩
    rw [constraints]
    refine or_congr_left ?_
    simp only [List.mem_filter, decide_eq_true_eq]
    rw [and_comm]
    refine and_congr_right fun _ => ?_
    have here := counts c
    rw [← List.count_pos_iff, ← List.count_pos_iff (l := news _)]
    have baseline_old : c ∈ news (replacements name t u) → (replaced name t u).count c = 0 := by
      intro new
      refine List.count_eq_zero.mpr fun old => ?_
      exact mem_news_baseline replacements_replace new (mem_olds_baseline replacements_replace old)
    rw [← List.count_pos_iff] at baseline_old
    have same : (olds (replacements name t u)).count c = (replaced name t u).count c := rfl
    have carried : (columnsDone name t u).constraints = carriedConstraints t u := rfl
    rw [same, carried] at here
    omega

end Vespertide
