import Vespertide.Normalizable
import Vespertide.TableReplay

/-!
One action on any schema, well formed or not. An edit mutates the first table of
its name and leaves every other table alone; where there is none it fails. A
failing action leaves the schema as it was, unless it added a column to a table
that normalisation then refuses: that table is left empty.
-/
namespace Vespertide

/-! The table that an edit finds -/

theorem table_at_split {schema : Schema} {name : String} {t : TableDef}
    (found : tableAt schema name = some t) : t.name = name ∧ ∃ before after,
      schema = before ++ t :: after ∧ ∀ u ∈ before, u.name ≠ name := by
  obtain ⟨named, before, after, split, others⟩ := List.find?_eq_some_iff_append.mp found
  refine ⟨by simpa using named, before, after, split, ?_⟩
  intro u mem
  simpa using others u mem

theorem on_table_missing {schema : Schema} {name : String} (absent : tableAt schema name = none)
    (f : TableDef → Outcome TableDef) :
    onTable name f schema = .fail schema (.tableNotFound name) := by
  induction schema with
  | nil => rfl
  | cons t rest ih =>
    rw [table_at_none] at absent ih
    have other := absent t List.mem_cons_self
    simp [onTable, other, ih fun t' mem => absent t' (List.mem_cons_of_mem t mem), Outcome.fail]

theorem on_table_split {before : List TableDef} {t : TableDef} {name : String}
    (named : t.name = name) (others : ∀ u ∈ before, u.name ≠ name) (after : List TableDef)
    (f : TableDef → Outcome TableDef) :
    onTable name f (before ++ t :: after) = ⟨before ++ (f t).state :: after, (f t).error⟩ := by
  induction before with
  | nil => simp [onTable, named]
  | cons u before ih =>
    have other := others u List.mem_cons_self
    simp [onTable, other, ih fun u' mem => others u' (List.mem_cons_of_mem u mem)]

theorem edit_applies {a : MigrationAction} (edit : isEdit a = true) (schema : Schema) :
    applyAction schema a = onTable (actionTable a) (tableEdit a) schema := by
  cases a <;> first | rfl | simp [isEdit, isLocal] at edit

/-! Failing actions -/

/-- What a failed re-normalisation leaves of the table it was moved out of. -/
def emptiedTable (table : String) : TableDef := ⟨table, none, [], []⟩

def RefusedWith (schema : Schema) (table : String) (column : ColumnDef) (t : TableDef) : Prop :=
  tableAt schema table = some t ∧ column.name ∉ t.columnNames ∧
    ¬ Normalizable (t.columns ++ [column])

theorem add_column_to {table : String} {column : ColumnDef} {t : TableDef}
    (fresh : column.name ∉ t.columnNames) (accepted : Normalizable (t.columns ++ [column])) :
    addColumnTo table column t = .ok { t with
      columns := t.columns ++ [column]
      constraints := promoted { t with columns := t.columns ++ [column] } } := by
  have unused : t.columns.any (·.name = column.name) = false := by
    simpa [TableDef.columnNames] using fresh
  have normal := normalize_of_normalizable (t := { t with columns := t.columns ++ [column] }) accepted
  simp [addColumnTo, unused, normal]

theorem add_column_present {table : String} {column : ColumnDef} {t : TableDef}
    (present : column.name ∈ t.columnNames) :
    addColumnTo table column t = .fail t (.columnExists table column.name) := by
  have used : t.columns.any (·.name = column.name) = true := by
    simpa [TableDef.columnNames] using present
  simp [addColumnTo, used]

theorem add_column_refused (table : String) {column : ColumnDef} {t : TableDef}
    (fresh : column.name ∉ t.columnNames) (refused : ¬ Normalizable (t.columns ++ [column])) :
    (addColumnTo table column t).state = emptiedTable table ∧
      (addColumnTo table column t).error ≠ none := by
  have unused : t.columns.any (·.name = column.name) = false := by
    simpa [TableDef.columnNames] using fresh
  cases normal : { t with columns := t.columns ++ [column] }.normalize with
  | error e => simp [addColumnTo, unused, normal, Outcome.fail, emptiedTable]
  | ok t' => exact absurd (normalizable_of_normalize normal) refused

theorem edit_error_keeps {a : MigrationAction} {t : TableDef}
    (other : ∀ table column fillWith, a ≠ .addColumn table column fillWith)
    (failed : (tableEdit a t).error ≠ none) : (tableEdit a t).state = t := by
  cases a with
  | addColumn table column fillWith => exact absurd rfl (other table column fillWith)
  | renameColumn table old new =>
    simp only [tableEdit, renameColumnIn] at failed ⊢
    split
    · rename_i found
      simp [found, Outcome.ok] at failed
    · rfl
  | deleteColumn table column =>
    simp only [tableEdit, deleteColumnFrom] at failed ⊢
    split
    · rename_i same
      -- nothing was filtered out
      have whole := List.filter_sublist.eq_of_length same
      simp only [Outcome.fail, whole]
    · rename_i shorter
      rw [if_neg shorter] at failed
      exact absurd rfl failed
  | replaceConstraint table old new =>
    simp only [tableEdit, replaceConstraintIn] at failed ⊢
    split
    · rename_i found
      simp [found, Outcome.ok] at failed
    · rfl
  | addConstraint table constraint => simp [tableEdit, addConstraintTo, Outcome.ok] at failed
  | removeConstraint table constraint => simp [tableEdit, removeConstraintFrom, Outcome.ok] at failed
  | createTable table columns constraints => simp [tableEdit, Outcome.ok] at failed
  | deleteTable table => simp [tableEdit, Outcome.ok] at failed
  | renameTable old new => simp [tableEdit, Outcome.ok] at failed
  | rawSql sql => simp [tableEdit, Outcome.ok] at failed
  | dataMigration sql description => simp [tableEdit, Outcome.ok] at failed
  | _ =>
    simp only [tableEdit, onColumn] at failed ⊢
    split
    · rename_i found
      simp [found, Outcome.ok] at failed
    · rfl

theorem edit_failed {schema : Schema} {a : MigrationAction} (edit : isEdit a = true)
    (other : ∀ table column fillWith, a ≠ .addColumn table column fillWith)
    (failed : (applyAction schema a).error ≠ none) : (applyAction schema a).state = schema := by
  rw [edit_applies edit] at failed ⊢
  cases found : tableAt schema (actionTable a) with
  | none => rw [on_table_missing found, Outcome.fail]
  | some t =>
    obtain ⟨named, before, after, rfl, others⟩ := table_at_split found
    rw [on_table_split named others after] at failed ⊢
    simp only [edit_error_keeps other failed]

theorem add_column_failed {schema : Schema} {table : String} {column : ColumnDef}
    {fillWith : Option String}
    (failed : (applyAction schema (.addColumn table column fillWith)).error ≠ none) :
    (applyAction schema (.addColumn table column fillWith)).state = schema ∨
      ∃ t, RefusedWith schema table column t := by
  rw [edit_applies rfl] at failed ⊢
  cases found : tableAt schema table with
  | none =>
    left
    exact congrArg Outcome.state (on_table_missing found _)
  | some t =>
    obtain ⟨named, before, after, rfl, others⟩ := table_at_split found
    have applied := on_table_split named others after (addColumnTo table column)
    simp only [actionTable, MigrationAction.tableName, Option.getD_some, tableEdit] at failed ⊢
    rw [applied] at failed ⊢
    by_cases present : column.name ∈ t.columnNames
    · left
      simp [add_column_present present, Outcome.fail]
    · by_cases accepted : Normalizable (t.columns ++ [column])
      · simp [add_column_to present accepted, Outcome.ok] at failed
      · exact .inr ⟨t, found, present, accepted⟩

theorem delete_table_failed {schema : Schema} {table : String}
    (failed : (deleteTable schema table).error ≠ none) :
    (deleteTable schema table).state = schema := by
  simp only [deleteTable] at failed ⊢
  split
  · rename_i same
    exact List.filter_sublist.eq_of_length same
  · rename_i shorter
    rw [if_neg shorter] at failed
    exact absurd rfl failed

theorem create_table_failed {schema : Schema} {table : String} {columns : List ColumnDef}
    {constraints : List TableConstraint}
    (failed : (createTable schema table columns constraints).error ≠ none) :
    (createTable schema table columns constraints).state = schema := by
  simp only [createTable] at failed ⊢
  split
  · rfl
  · rename_i free
    simp only [free, Bool.false_eq_true, ↓reduceIte] at failed
    cases normal : (TableDef.mk table none columns constraints).normalize with
    | error e => rfl
    | ok t => simp [normal, Outcome.ok] at failed

theorem rename_table_failed {schema : Schema} {old new : String}
    (failed : (renameTable schema old new).error ≠ none) :
    (renameTable schema old new).state = schema := by
  simp only [renameTable] at failed ⊢
  split
  · rfl
  · rename_i free
    simp only [free, Bool.false_eq_true, ↓reduceIte] at failed
    cases found : tableAt schema old with
    | none => simp [on_table_missing found, Outcome.fail]
    | some t =>
      rw [on_table_error found] at failed
      simp [Outcome.ok] at failed

/-- An action that fails leaves the schema as it was, an added column that the table
    cannot be normalised with apart. -/
theorem action_failed {schema : Schema} {a : MigrationAction}
    (failed : (applyAction schema a).error ≠ none) : (applyAction schema a).state = schema ∨
      ∃ table column fillWith t, a = .addColumn table column fillWith ∧
        RefusedWith schema table column t := by
  cases a with
  | createTable table columns constraints => exact .inl (create_table_failed failed)
  | deleteTable table => exact .inl (delete_table_failed failed)
  | renameTable old new => exact .inl (rename_table_failed failed)
  | rawSql sql => exact .inl rfl
  | dataMigration sql description => exact .inl rfl
  | addColumn table column fillWith =>
    rcases add_column_failed failed with kept | ⟨t, refused⟩
    · exact .inl kept
    · exact .inr ⟨table, column, fillWith, t, rfl, refused⟩
  | _ => exact .inl (edit_failed rfl (by simp) failed)

/-! Replay as a run of actions -/

theorem to_except_ok {schema s' : Schema} {a : MigrationAction} :
    (applyAction schema a).toExcept = .ok s' ↔
      (applyAction schema a).error = none ∧ (applyAction schema a).state = s' := by
  unfold Outcome.toExcept
  cases (applyAction schema a).error <;> simp

theorem apply_actions_cons (schema : Schema) (a : MigrationAction)
    (actions : List MigrationAction) :
    applyActions schema (a :: actions) =
      (applyAction schema a).toExcept.bind fun s => applyActions s actions := rfl

theorem apply_actions_append (schema : Schema) (first second : List MigrationAction) :
    applyActions schema (first ++ second) =
      (applyActions schema first).bind fun s => applyActions s second := by
  unfold applyActions
  rw [List.foldlM_append]
  rfl

theorem apply_actions_snoc {schema s' : Schema} {before : List MigrationAction}
    {a : MigrationAction} : applyActions schema (before ++ [a]) = .ok s' ↔
      ∃ s, applyActions schema before = .ok s ∧ (applyAction s a).toExcept = .ok s' := by
  rw [apply_actions_append]
  cases applyActions schema before with
  | error e => simp [Except.bind]
  | ok s =>
    have last : applyActions s [a] = (applyAction s a).toExcept := by
      rw [apply_actions_cons]
      cases (applyAction s a).toExcept <;> rfl
    simp [Except.bind, last]

theorem schema_from_plans_actions (plans : List MigrationPlan) :
    schemaFromPlans plans = applyActions [] (plans.flatMap (·.actions)) := by
  unfold schemaFromPlans
  generalize ([] : Schema) = first
  induction plans generalizing first with
  | nil => rfl
  | cons plan plans ih =>
    rw [List.foldlM_cons, List.flatMap_cons, apply_actions_append]
    cases applyActions first plan.actions with
    | error e => rfl
    | ok next => exact ih next

def Along (cond : Schema → MigrationAction → Prop) : Schema → List MigrationAction → Prop
  | _, [] => True
  | s, a :: rest => cond s a ∧ Along cond (applyAction s a).state rest

instance Along.decide (cond : Schema → MigrationAction → Prop) [∀ s a, Decidable (cond s a)] :
    ∀ s actions, Decidable (Along cond s actions)
  | _, [] => .isTrue trivial
  | s, a :: rest =>
      have := Along.decide cond (applyAction s a).state rest
      inferInstanceAs (Decidable (cond s a ∧ Along cond (applyAction s a).state rest))

theorem actions_preserve {P : Schema → Prop} {cond : Schema → MigrationAction → Prop}
    (step : ∀ s a, P s → cond s a → (applyAction s a).error = none → P (applyAction s a).state)
    {schema s' : Schema} (start : P schema) {actions : List MigrationAction}
    (along : Along cond schema actions) (ok : applyActions schema actions = .ok s') : P s' := by
  induction actions generalizing schema with
  | nil =>
    obtain rfl := Except.ok.inj ok
    exact start
  | cons a actions ih =>
    obtain ⟨here, later⟩ := along
    rw [apply_actions_cons] at ok
    cases applied : (applyAction schema a).toExcept with
    | error e => rw [applied] at ok; cases ok
    | ok next =>
      obtain ⟨done, rfl⟩ := to_except_ok.mp applied
      rw [applied] at ok
      exact ih (step schema a start here done) later ok

/-! Atomicity -/

/-- The action adds a column that an existing, not yet empty table cannot be
    normalised with. -/
def EmptiesTable (schema : Schema) : MigrationAction → Prop
  | .addColumn table column _ =>
      ∃ t, RefusedWith schema table column t ∧ t ≠ emptiedTable table
  | _ => False

theorem refused_state {schema : Schema} {table : String} {column : ColumnDef} {t : TableDef}
    (refused : RefusedWith schema table column t) (fillWith : Option String) :
    (applyAction schema (.addColumn table column fillWith)).error ≠ none ∧
      ((applyAction schema (.addColumn table column fillWith)).state = schema ↔
        t = emptiedTable table) := by
  obtain ⟨found, fresh, unaccepted⟩ := refused
  obtain ⟨named, before, after, rfl, others⟩ := table_at_split found
  obtain ⟨state, error⟩ := add_column_refused table fresh unaccepted
  have applied := on_table_split named others after (addColumnTo table column)
  refine ⟨fun ok => error ((congrArg Outcome.error applied).symm.trans ok), ?_⟩
  show (onTable table (addColumnTo table column) (before ++ t :: after)).state = _ ↔ _
  rw [applied, state]
  simp only [List.append_cancel_left_eq, List.cons.injEq, and_true]
  exact eq_comm

theorem apply_action_atomic_iff (schema : Schema) (a : MigrationAction) :
    ((applyAction schema a).error ≠ none → (applyAction schema a).state = schema) ↔
      ¬ EmptiesTable schema a := by
  constructor
  · intro atomic empties
    cases a with
    | addColumn table column fillWith =>
      obtain ⟨t, refused, filled⟩ := empties
      obtain ⟨failed, state⟩ := refused_state refused fillWith
      exact filled (state.mp (atomic failed))
    | _ => exact empties
  · intro keeps failed
    rcases action_failed failed with kept | ⟨table, column, fillWith, t, rfl, refused⟩
    · exact kept
    · apply (refused_state refused fillWith).2.mpr
      by_contra filled
      exact keeps ⟨t, refused, filled⟩

def invoiceSchema : Schema :=
  [⟨"invoice", none, [.new "id" (.simple .integer) false], [.primaryKey false ["id"] .default]⟩]

def unparsableCustomer : MigrationAction :=
  .addColumn "invoice" { ColumnDef.new "customer" (.simple .integer) true with
    foreignKey := some (.string "customer") } none

/-- The reference of the new column does not parse: the invoice table loses its column and
    its key, though the action fails. -/
theorem refused_column_empties :
    ¬ ((applyAction invoiceSchema unparsableCustomer).error ≠ none →
      (applyAction invoiceSchema unparsableCustomer).state = invoiceSchema) := by
  decide

end Vespertide
