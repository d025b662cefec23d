import Vespertide.AddConstraint
import Vespertide.Additions
import Vespertide.Ordering

/-!
The cleanup of rows and the scans that ask for it. The builders decide by the
schema replayed up to the action, the scans by the baseline and by the columns
they recognise, and no scan looks at a replaced constraint.
-/
namespace Vespertide
open SqlRows

/-! What the builders emit -/

def NeedsCleanup (schema : List TableDef) (table : String) : TableConstraint → Prop
  | .primaryKey _ columns _ => tryResolveSinglePkColumn table schema columns ≠ none
  | .unique _ columns _ => tryResolveSinglePkColumn table schema columns ≠ none
  | .foreignKey _ columns _ refColumns _ _ _ => columns.length = refColumns.length ∧ columns ≠ []
  | .check _ _ _ => True
  | .index _ _ => False

def ChangesRows (table : String) (result : Except QueryError (List BuiltQuery)) : Prop :=
  ∃ queries, result = .ok queries ∧ ∃ q ∈ queries, q.changesRowsOf = some table

theorem indexes_change_no_rows (table : String) (c : TableConstraint) {q : BuiltQuery}
    (mem : q ∈ plainIndexes table c ++ uniqueIndexes table c) : q.changesRowsOf = none := by
  cases c <;> simp [plainIndexes, uniqueIndexes] at mem <;> subst mem <;> rfl

theorem rebuild_changes_no_rows {table : String} {createColumns copyColumns : List ColumnDef}
    {createConstraints recreateConstraints pendingConstraints : List TableConstraint}
    {q : BuiltQuery} (mem : q ∈ buildSqliteTableRebuild table createColumns createConstraints
      copyColumns recreateConstraints pendingConstraints) : q.changesRowsOf = none := by
  simp only [buildSqliteTableRebuild, List.mem_append, List.mem_cons, List.not_mem_nil,
    or_false] at mem
  rcases mem with (rfl | rfl | rfl | rfl) | recreated
  · rfl
  · rfl
  · rfl
  · rfl
  · obtain ⟨c, _, here⟩ := List.mem_flatMap.mp recreated
    split at here
    · simp at here
    · exact indexes_change_no_rows table c here

/-- A result that does not fail on every schema, and never touches a row. -/
theorem rebuild_result {table context : String} {schema : List TableDef}
    {rebuild : TableDef → List BuiltQuery} {cleanup : List BuiltQuery}
    (untouched : ∀ t, ∀ q ∈ rebuild t, q.changesRowsOf = none)
    (changes : ChangesRows table (((requireTableInSchema schema table context).map rebuild).map
      (cleanup ++ ·))) :
    ∃ q ∈ cleanup, q.changesRowsOf = some table := by
  obtain ⟨queries, ok, q, mem, changed⟩ := changes
  cases found : requireTableInSchema schema table context with
  | error e => simp [found, Except.map] at ok
  | ok t =>
    simp only [found, Except.map, Except.ok.injEq] at ok
    subst ok
    rcases List.mem_append.mp mem with here | rebuilt
    · exact ⟨q, here, changed⟩
    · simp [untouched t q rebuilt] at changed

theorem orphan_cleanup_table {table refTable : String} {columns refColumns : List String}
    {strategy : ForeignKeyOrphanStrategy} {statements : List (Statement String)}
    (built : buildFkOrphanCleanup table columns refTable refColumns strategy = .ok statements) :
    (∀ s ∈ statements, s.table = table) ∧
      (statements ≠ [] ↔ columns.length = refColumns.length ∧ columns ≠ []) := by
  simp only [buildFkOrphanCleanup] at built
  split at built
  · simp at built
  · rename_i lengths
    have same : columns.length = refColumns.length := not_not.mp lengths
    split at built
    · cases strategy <;> simp only [Except.ok.injEq] at built <;> subst built <;>
        simpa [Statement.table] using same
    · rename_i absent
      obtain rfl : [] = statements := Except.ok.inj built
      refine ⟨by simp, ?_⟩
      simp only [ne_eq, not_true_eq_false, false_iff, not_and, not_not]
      intro _
      by_contra nonempty
      obtain ⟨c, cs, rfl⟩ := List.exists_cons_of_ne_nil nonempty
      obtain ⟨r, rs, rfl⟩ : ∃ r rs, refColumns = r :: rs := by
        cases refColumns with
        | nil => simp at same
        | cons r rs => exact ⟨r, rs, rfl⟩
      exact absent c cs (c, r) (cs.zip rs) rfl rfl

theorem orphan_cleanup_built (table refTable : String) {columns refColumns : List String}
    (strategy : ForeignKeyOrphanStrategy) (same : columns.length = refColumns.length) :
    ∃ statements,
      buildFkOrphanCleanup table columns refTable refColumns strategy = .ok statements := by
  simp only [buildFkOrphanCleanup, same, ne_eq, not_true_eq_false, ↓reduceIte]
  split
  · cases strategy <;> exact ⟨_, rfl⟩
  · exact ⟨_, rfl⟩

theorem appended_changes_iff {table : String} {cleanup rest : List BuiltQuery}
    (untouched : ∀ q ∈ rest, q.changesRowsOf = none) :
    ChangesRows table (.ok (cleanup ++ rest)) ↔ ∃ q ∈ cleanup, q.changesRowsOf = some table := by
  constructor
  · rintro ⟨queries, ok, q, mem, changed⟩
    obtain rfl := Except.ok.inj ok
    rcases List.mem_append.mp mem with here | later
    · exact ⟨q, here, changed⟩
    · simp [untouched q later] at changed
  · rintro ⟨q, here, changed⟩
    exact ⟨_, rfl, q, List.mem_append_left _ here, changed⟩

theorem cleanup_changes_iff {table : String} {statements : List (Statement String)}
    (own : ∀ s ∈ statements, s.table = table) :
    (∃ q ∈ statements.map BuiltQuery.cleanup, q.changesRowsOf = some table) ↔
      statements ≠ [] := by
  constructor
  · rintro ⟨q, mem, _⟩ rfl
    simp at mem
  · intro nonempty
    obtain ⟨s, mem⟩ := List.exists_mem_of_ne_nil statements nonempty
    exact ⟨.cleanup s, List.mem_map_of_mem mem, by simp [BuiltQuery.changesRowsOf, own s mem]⟩

theorem pk_cleanup_changes_iff (table : String) (schema : List TableDef) (columns : List String)
    (strategy : PrimaryKeyAdditionStrategy) :
    (∃ q ∈ (buildPkPreCleanup table schema columns strategy).map BuiltQuery.cleanup,
      q.changesRowsOf = some table) ↔ tryResolveSinglePkColumn table schema columns ≠ none := by
  have own : ∀ s ∈ buildPkPreCleanup table schema columns strategy, s.table = table := by
    simp only [buildPkPreCleanup]
    split <;> simp [deleteDuplicates, Statement.table]
  rw [cleanup_changes_iff own]
  simp only [buildPkPreCleanup]
  split <;> simp [*]

theorem unique_cleanup_changes_iff (table : String) (schema : List TableDef)
    (columns : List String) (strategy : UniqueConstraintStrategy) :
    (∃ q ∈ (buildPreCleanupDelete table columns strategy schema).map BuiltQuery.cleanup,
      q.changesRowsOf = some table) ↔ tryResolveSinglePkColumn table schema columns ≠ none := by
  have own : ∀ s ∈ buildPreCleanupDelete table columns strategy schema, s.table = table := by
    simp only [buildPreCleanupDelete]
    split <;> simp [deleteDuplicates, Statement.table]
  rw [cleanup_changes_iff own]
  simp only [buildPreCleanupDelete]
  split <;> simp [*]

/-- Some backend changes rows exactly when `needed`, and PostgreSQL is one that does. -/
def ChangesExactly (table : String)
    (build : DatabaseBackend → Except QueryError (List BuiltQuery)) (needed : Prop) : Prop :=
  (∀ backend, ChangesRows table (build backend) → needed) ∧
    (needed → ChangesRows table (build .postgres))

theorem primary_key_changes (table : String) (schema : List TableDef)
    (pending : List TableConstraint) (columns : List String)
    (strategy : PrimaryKeyAdditionStrategy) (c : TableConstraint) :
    ChangesExactly table (fun backend => buildPrimaryKey backend table schema pending columns
      strategy c) (tryResolveSinglePkColumn table schema columns ≠ none) := by
  rw [← pk_cleanup_changes_iff table schema columns strategy]
  constructor
  · intro backend changes
    simp only [buildPrimaryKey] at changes
    split at changes
    · exact rebuild_result (fun _ _ mem => rebuild_changes_no_rows mem) changes
    · exact (appended_changes_iff (by simp [BuiltQuery.changesRowsOf])).mp changes
  · exact (appended_changes_iff (by simp [BuiltQuery.changesRowsOf])).mpr

theorem unique_changes (table : String) (schema : List TableDef) (name : Option String)
    (columns : List String) (strategy : UniqueConstraintStrategy) :
    ChangesExactly table (fun _ => buildUnique table schema name columns strategy)
      (tryResolveSinglePkColumn table schema columns ≠ none) := by
  rw [← unique_cleanup_changes_iff table schema columns strategy]
  exact ⟨fun _ => (appended_changes_iff (by simp [BuiltQuery.changesRowsOf])).mp,
    (appended_changes_iff (by simp [BuiltQuery.changesRowsOf])).mpr⟩

theorem foreign_key_changes (table : String) (schema : List TableDef)
    (pending : List TableConstraint) (name : Option String) (columns : List String)
    (refTable : String) (refColumns : List String) (onDelete onUpdate : Option ReferenceAction)
    (strategy : ForeignKeyOrphanStrategy) (c : TableConstraint) :
    ChangesExactly table (fun backend => buildForeignKey backend table schema pending name columns
      refTable refColumns onDelete onUpdate strategy c)
      (columns.length = refColumns.length ∧ columns ≠ []) := by
  cases built : buildFkOrphanCleanup table columns refTable refColumns strategy with
  | error e =>
    have apart : columns.length ≠ refColumns.length := by
      intro same
      obtain ⟨_, ok⟩ := orphan_cleanup_built table refTable strategy same
      simp [ok] at built
    simp [ChangesExactly, ChangesRows, buildForeignKey, built, apart]
  | ok statements =>
    obtain ⟨own, nonempty⟩ := orphan_cleanup_table built
    rw [← nonempty, ← cleanup_changes_iff own]
    simp only [ChangesExactly, buildForeignKey, built]
    constructor
    · intro backend changes
      cases backend with
      | sqlite => exact rebuild_result (fun _ _ mem => rebuild_changes_no_rows mem) changes
      | postgres => exact (appended_changes_iff (by simp [BuiltQuery.changesRowsOf])).mp changes
      | mySql => exact (appended_changes_iff (by simp [BuiltQuery.changesRowsOf])).mp changes
    · exact (appended_changes_iff (by simp [BuiltQuery.changesRowsOf])).mpr

theorem check_changes (table : String) (schema : List TableDef) (pending : List TableConstraint)
    (name expr : String) (strategy : CheckViolationStrategy) (c : TableConstraint) :
    ChangesExactly table (fun backend => buildCheck backend table schema pending name expr
      strategy c) True := by
  refine ⟨fun _ _ => trivial, fun _ => ?_⟩
  refine ⟨_, rfl, buildCheckViolationCleanup table expr strategy, by simp, ?_⟩
  cases strategy <;> rfl

theorem add_constraint_changes (table : String) (schema : List TableDef)
    (pending : List TableConstraint) (c : TableConstraint) :
    ChangesExactly table (fun backend => buildAddConstraint backend table schema pending c)
      (NeedsCleanup schema table c) := by
  cases c with
  | primaryKey _ columns strategy =>
    exact primary_key_changes table schema pending columns strategy _
  | unique name columns strategy => exact unique_changes table schema name columns strategy
  | foreignKey name columns refTable refColumns onDelete onUpdate strategy =>
    exact foreign_key_changes table schema pending name columns refTable refColumns onDelete
      onUpdate strategy _
  | check name expr strategy => exact check_changes table schema pending name expr strategy _
  | index name columns =>
    simp [ChangesExactly, NeedsCleanup, ChangesRows, buildAddConstraint, BuiltQuery.changesRowsOf]

/-- The replacement of a foreign key by a foreign key, which no backend cleans up for. -/
def bothForeignKeys : TableConstraint → TableConstraint → Bool
  | .foreignKey _ _ _ _ _ _ _, .foreignKey _ _ _ _ _ _ _ => true
  | _, _ => false

theorem removal_changes_no_rows (table : String) (schema : List TableDef)
    (pending : List TableConstraint) {backend : DatabaseBackend} (server : backend ≠ .sqlite)
    (c : TableConstraint) :
    ∃ removed, buildRemoveConstraint backend table schema pending c = .ok removed ∧
      ∀ q ∈ removed, q.changesRowsOf = none := by
  cases backend with
  | sqlite => exact absurd rfl server
  | postgres =>
    refine ⟨_, rfl, ?_⟩
    cases c <;> simp [postgresRemoveConstraint, BuiltQuery.changesRowsOf]
  | mySql =>
    refine ⟨_, rfl, ?_⟩
    cases c <;> simp [mysqlRemoveConstraint, BuiltQuery.changesRowsOf]

/-- Off SQLite and between different kinds, a removal followed by an addition. -/
theorem replace_as_addition (table : String) (schema : List TableDef)
    (pending : List TableConstraint) {backend : DatabaseBackend} (server : backend ≠ .sqlite)
    {old new : TableConstraint} (other : bothForeignKeys old new = false) :
    ∃ removed : List BuiltQuery, (∀ q ∈ removed, q.changesRowsOf = none) ∧
      buildReplaceConstraint backend table schema pending old new =
        (buildAddConstraint backend table (replacedSchema table schema old new) pending new).map
          (removed ++ ·) := by
  obtain ⟨removed, built, untouched⟩ := removal_changes_no_rows table schema pending server old
  refine ⟨removed, untouched, ?_⟩
  cases backend with
  | sqlite => exact absurd rfl server
  | postgres => cases old <;> cases new <;> simp_all [buildReplaceConstraint, bothForeignKeys]
  | mySql => cases old <;> cases new <;> simp_all [buildReplaceConstraint, bothForeignKeys]

theorem prepended_changes_iff {table : String} {removed : List BuiltQuery}
    (untouched : ∀ q ∈ removed, q.changesRowsOf = none)
    (result : Except QueryError (List BuiltQuery)) :
    ChangesRows table (result.map (removed ++ ·)) ↔ ChangesRows table result := by
  cases result with
  | error e => simp [ChangesRows, Except.map]
  | ok queries =>
    simp only [ChangesRows, Except.map, Except.ok.injEq, exists_eq_left', List.mem_append]
    constructor
    · rintro ⟨q, here | later, changed⟩
      · simp [untouched q here] at changed
      · exact ⟨q, later, changed⟩
    · rintro ⟨q, mem, changed⟩
      exact ⟨q, .inr mem, changed⟩

theorem sqlite_replace_untouched (table : String) (schema : List TableDef)
    (pending : List TableConstraint) (old new : TableConstraint) :
    ¬ ChangesRows table (buildReplaceConstraint .sqlite table schema pending old new) := by
  rintro ⟨queries, ok, q, mem, changed⟩
  simp only [buildReplaceConstraint, buildSqliteConstraintReplace] at ok
  cases found : requireTableInSchema schema table
      "SQLite requires current schema information to replace constraints" with
  | error e => simp [found, Except.map] at ok
  | ok t =>
    simp only [found, Except.map, Except.ok.injEq] at ok
    subst ok
    simp [rebuild_changes_no_rows mem] at changed

theorem foreign_key_replace_untouched (table : String) (schema : List TableDef)
    (pending : List TableConstraint) (backend : DatabaseBackend) {old new : TableConstraint}
    (both : bothForeignKeys old new = true) :
    ¬ ChangesRows table (buildReplaceConstraint backend table schema pending old new) := by
  cases backend with
  | sqlite => exact sqlite_replace_untouched table schema pending old new
  | postgres =>
    cases old <;> cases new <;>
      simp_all [bothForeignKeys, ChangesRows, buildReplaceConstraint, BuiltQuery.changesRowsOf]
  | mySql =>
    cases old <;> cases new <;>
      simp_all [bothForeignKeys, ChangesRows, buildReplaceConstraint, BuiltQuery.changesRowsOf]

theorem replace_constraint_changes (table : String) (schema : List TableDef)
    (pending : List TableConstraint) (old new : TableConstraint) :
    ChangesExactly table
      (fun backend => buildReplaceConstraint backend table schema pending old new)
      (bothForeignKeys old new = false ∧
        NeedsCleanup (replacedSchema table schema old new) table new) := by
  have added := add_constraint_changes table (replacedSchema table schema old new) pending new
  constructor
  · intro backend changes
    have other : bothForeignKeys old new = false := by
      by_contra both
      exact foreign_key_replace_untouched table schema pending backend
        (Bool.eq_true_of_not_eq_false both) changes
    have server : backend ≠ .sqlite := by
      rintro rfl
      exact sqlite_replace_untouched table schema pending old new changes
    obtain ⟨removed, untouched, built⟩ := replace_as_addition table schema pending server other
    simp only [built, prepended_changes_iff untouched] at changes
    exact ⟨other, added.1 backend changes⟩
  · rintro ⟨other, needed⟩
    obtain ⟨removed, untouched, built⟩ :=
      replace_as_addition table schema pending (nofun : DatabaseBackend.postgres ≠ .sqlite) other
    simp only [built, prepended_changes_iff untouched]
    exact added.2 needed

/-! What the scans report -/

theorem scan_reports_iff {α : Type} {plan : MigrationPlan}
    {f : Nat → MigrationAction → Option α} {actionIndex : α → Nat}
    (own : ∀ idx a w, f idx a = some w → actionIndex w = idx) {index : Nat}
    {action : MigrationAction} (here : plan.actions[index]? = some action) :
    index ∈ (scanActions plan f).map actionIndex ↔ (f index action).isSome := by
  simp only [scanActions, List.mem_map, List.mem_filterMap, Prod.exists]
  constructor
  · rintro ⟨w, ⟨a, idx, mem, found⟩, rfl⟩
    obtain rfl := own idx a w found
    have there := List.mem_zipIdx_iff_getElem?.mp mem
    simp only at there
    obtain rfl : a = action := Option.some.inj (there.symm.trans here)
    simp [found]
  · intro reported
    obtain ⟨w, found⟩ := Option.isSome_iff_exists.mp reported
    exact ⟨w, ⟨action, index, List.mem_zipIdx_iff_getElem?.mpr here, found⟩,
      own index action w found⟩

def Reported (plan : MigrationPlan) (baseline : List TableDef) (index : Nat) :
    TableConstraint → Prop
  | .unique _ _ _ => index ∈ (findUniqueAdditions plan baseline).map (·.actionIndex)
  | .primaryKey _ _ _ => index ∈ (findPrimaryKeyAdditions plan baseline).map (·.actionIndex)
  | .foreignKey _ _ _ _ _ _ _ => index ∈ (findFkOrphanAdditions plan baseline).map (·.actionIndex)
  | .check _ _ _ => index ∈ (findCheckAdditions plan baseline).map (·.actionIndex)
  | .index _ _ => False

/-- The shapes of an addition that its scan does not pass over. -/
def Recognised (t : TableDef) : TableConstraint → Prop
  | .unique _ columns _ => t.hasColumns columns
  | .primaryKey _ columns _ =>
      columns ≠ [] ∧ t.hasColumns columns ∧
        ¬ (coveredByUnique t columns ∧ nullableKeyColumns t columns = [])
  | .foreignKey _ columns _ _ _ _ _ => t.hasColumns columns
  | .check _ expr _ => ∃ col ∈ t.columns, matchesForColumn expr col.name
  | .index _ _ => False

theorem existing_columns_iff (t : TableDef) (columns : List String) :
    pkAdditionKind t columns = .existingColumns ↔ columns ≠ [] ∧ t.hasColumns columns := by
  have all : (columns.filter fun c => c ∈ t.columnNames).length = columns.length ↔
      t.hasColumns columns := by
    rw [List.length_filter_eq_length_iff]
    simp [TableDef.hasColumns]
  simp only [pkAdditionKind]
  split
  · rename_i absent
    simp only [reduceCtorEq, false_iff, not_and, ← all, absent]
    intro nonempty
    exact fun empty => nonempty (List.length_eq_zero_iff.mp empty.symm)
  · split
    · rename_i present same
      have nonempty : columns ≠ [] := by
        rintro rfl
        simp at present
      simp [nonempty, ← all, same]
    · rename_i present some_missing
      simp [← all, some_missing]

theorem unique_addition_index (baseline : List TableDef) (idx : Nat) (a : MigrationAction)
    (w : UniqueAdditionWarning) (reported : uniqueAddition baseline idx a = some w) :
    w.actionIndex = idx := by
  simp only [uniqueAddition] at reported
  grind

theorem primary_key_addition_index (baseline : List TableDef) (idx : Nat) (a : MigrationAction)
    (w : PrimaryKeyAdditionWarning) (reported : primaryKeyAddition baseline idx a = some w) :
    w.actionIndex = idx := by
  simp only [primaryKeyAddition] at reported
  grind

theorem fk_orphan_addition_index (baseline : List TableDef) (idx : Nat) (a : MigrationAction)
    (w : FkOrphanAdditionWarning) (reported : fkOrphanAddition baseline idx a = some w) :
    w.actionIndex = idx := by
  simp only [fkOrphanAddition] at reported
  grind

theorem check_addition_index (baseline : List TableDef) (idx : Nat) (a : MigrationAction)
    (w : CheckAdditionWarning) (reported : checkAddition baseline idx a = some w) :
    w.actionIndex = idx := by
  simp only [checkAddition] at reported
  split at reported
  · split at reported
    · simp at reported
    · obtain ⟨_, _, rfl⟩ := Option.map_eq_some_iff.mp reported
      rfl
  · simp at reported

section Scans
variable {plan : MigrationPlan} {baseline : List TableDef} {index : Nat} {table : String}
  {c : TableConstraint} {t : TableDef}

theorem addition_reported_iff (here : plan.actions[index]? = some (.addConstraint table c))
    (found : findTable baseline table = some t) :
    Reported plan baseline index c ↔ Recognised t c := by
  cases c with
  | unique name columns strategy =>
    simp only [Reported, findUniqueAdditions]
    rw [scan_reports_iff (unique_addition_index baseline) here]
    simp only [uniqueAddition, found, Recognised]
    split <;> simp_all
  | primaryKey autoIncrement columns strategy =>
    simp only [Reported, findPrimaryKeyAdditions]
    rw [scan_reports_iff (primary_key_addition_index baseline) here]
    simp only [primaryKeyAddition, found, Recognised, ← and_assoc, ← existing_columns_iff]
    split
    · simp_all
    · split <;> simp_all
  | foreignKey name columns refTable refColumns onDelete onUpdate strategy =>
    simp only [Reported, findFkOrphanAdditions]
    rw [scan_reports_iff (fk_orphan_addition_index baseline) here]
    simp only [fkOrphanAddition, found, Recognised]
    split <;> simp_all
  | check name expr strategy =>
    simp only [Reported, findCheckAdditions]
    rw [scan_reports_iff (check_addition_index baseline) here]
    simp [checkAddition, found, Recognised, findCheckTargetColumn]
  | index name columns => simp [Reported, Recognised]

theorem replacement_not_reported {old : TableConstraint}
    (here : plan.actions[index]? = some (.replaceConstraint table old c)) :
    ¬ Reported plan baseline index c := by
  cases c with
  | unique name columns strategy =>
    simp [Reported, findUniqueAdditions, scan_reports_iff (unique_addition_index baseline) here,
      uniqueAddition]
  | primaryKey autoIncrement columns strategy =>
    simp [Reported, findPrimaryKeyAdditions,
      scan_reports_iff (primary_key_addition_index baseline) here, primaryKeyAddition]
  | foreignKey name columns refTable refColumns onDelete onUpdate strategy =>
    simp [Reported, findFkOrphanAdditions,
      scan_reports_iff (fk_orphan_addition_index baseline) here, fkOrphanAddition]
  | check name expr strategy =>
    simp [Reported, findCheckAdditions, scan_reports_iff (check_addition_index baseline) here,
      checkAddition]
  | index name columns => simp [Reported]

end Scans

/-- No addition or replacement on a baseline table changes its rows unreported. -/
def NeverSilent (plan : MigrationPlan) (baseline : List TableDef) : Prop :=
  ∀ index action table c, plan.actions[index]? = some action →
    (action = .addConstraint table c ∨ ∃ old, action = .replaceConstraint table old c) →
    findTable baseline table ≠ none →
    (∃ backend, ChangesRows table (buildConstraintActionQueries backend action
      (evolvingSchema plan baseline index) (pendingConstraintsForAction plan index action))) →
    Reported plan baseline index c

/-- The additions that need a cleanup are recognised, and no replacement needs one. -/
def AsksFirst (plan : MigrationPlan) (baseline : List TableDef) (index : Nat) :
    MigrationAction → Prop
  | .addConstraint table c =>
      ∀ t, findTable baseline table = some t →
        NeedsCleanup (evolvingSchema plan baseline index) table c → Recognised t c
  | .replaceConstraint table old new =>
      findTable baseline table ≠ none → bothForeignKeys old new = false →
        ¬ NeedsCleanup (replacedSchema table (evolvingSchema plan baseline index) old new) table new
  | _ => True

theorem changes_exactly_iff {table : String}
    {build : DatabaseBackend → Except QueryError (List BuiltQuery)} {needed : Prop}
    (exact : ChangesExactly table build needed) :
    (∃ backend, ChangesRows table (build backend)) ↔ needed :=
  ⟨fun ⟨backend, changes⟩ => exact.1 backend changes, fun h => ⟨.postgres, exact.2 h⟩⟩

theorem addition_recognised {plan : MigrationPlan} {baseline : List TableDef}
    (never : NeverSilent plan baseline) (index : Nat) {table : String} {c : TableConstraint}
    {t : TableDef} (here : plan.actions[index]? = some (.addConstraint table c))
    (found : findTable baseline table = some t)
    (needed : NeedsCleanup (evolvingSchema plan baseline index) table c) : Recognised t c := by
  refine (addition_reported_iff here found).mp ?_
  refine never index _ table c here (.inl rfl) (by simp [found]) ?_
  exact (changes_exactly_iff (add_constraint_changes table _ _ c)).mpr needed

/-- For every plan, a computed difference among them. -/
theorem cleanup_reported_iff (plan : MigrationPlan) (baseline : List TableDef) :
    NeverSilent plan baseline ↔
      ∀ index action, plan.actions[index]? = some action →
        AsksFirst plan baseline index action := by
  constructor
  · intro never index action here
    cases action with
    | addConstraint table c =>
      intro t found needed
      exact addition_recognised never index here found needed
    | replaceConstraint table old new =>
      intro found other needed
      refine replacement_not_reported here (never index _ table new here (.inr ⟨old, rfl⟩) found ?_)
      exact (changes_exactly_iff (replace_constraint_changes table _ _ old new)).mpr ⟨other, needed⟩
    | _ => trivial
  · rintro asks index action table c here (rfl | ⟨old, rfl⟩) present changes
    · obtain ⟨t, found⟩ := Option.ne_none_iff_exists'.mp present
      refine (addition_reported_iff here found).mpr (asks index _ here t found ?_)
      exact (changes_exactly_iff (add_constraint_changes table _ _ c)).mp changes
    · obtain ⟨other, needed⟩ :=
        (changes_exactly_iff (replace_constraint_changes table _ _ old c)).mp changes
      exact absurd needed (asks index _ here present other)

def slotTable (checks : List TableConstraint) : TableDef :=
  ⟨"slot", none, [.new "lo" (.simple .integer) false, .new "hi" (.simple .integer) false], checks⟩

def orderedCheck : TableConstraint := .check "chk_order" "lo < hi" .deleteViolatingRows

set_option maxRecDepth 20000 in
theorem slot_plan : diffSchemas [slotTable []] [slotTable [orderedCheck]] =
    .ok ⟨"", none, none, 0, [.addConstraint "slot" orderedCheck]⟩ := by
  decide

/-- The rows with `lo` at or above `hi` are deleted and nobody is asked. -/
theorem unread_check_deletes :
    ¬ ∀ baseline target plan, diffSchemas baseline target = .ok plan →
      NeverSilent plan baseline := by
  intro never
  obtain ⟨col, mem, recognised⟩ := addition_recognised (t := slotTable [])
    (never _ _ _ slot_plan) 0 rfl (by decide) trivial
  revert col
  decide

end Vespertide
