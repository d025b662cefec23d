import Vespertide.EmbeddedHistory

/-!
Column comments on MySQL. A definition is sent whole, and only a change of the
comment itself sends one along: what a column is created, added or changed with
drops it, while replay keeps it.
-/
namespace Vespertide
open Registry Results

section Step
variable {schema s' : Schema} {db db' : ColumnCatalog} {a : MigrationAction}

end Step

/-! Whole plans -/

def LeavesColumn (table column : String) : MigrationAction → Prop
  | .deleteTable name => name ≠ table
  | .renameTable old _ => old ≠ table
  | .renameColumn name old _ => ¬ (name = table ∧ old = column)
  | .deleteColumn name dropped => ¬ (name = table ∧ dropped = column)
  | _ => True

def lastComment (table column : String) (comment : Option String) (a : MigrationAction) :
    Option String :=
  if actionTable a = table ∧ modifiedColumn a = some column then sentComment a else comment

def Plain (db : ColumnCatalog) (table column : String) (comment : Option String) : Prop :=
  ∃ columns entry, db table = some columns ∧ columns column = some entry ∧
    entry.autoIncrement = false ∧ entry.comment = comment

section Changed
variable {schema s' : Schema} {db db' : ColumnCatalog} {a : MigrationAction}
  {table column : String} {comment : Option String}

theorem kept_unmodified (keeps : keepsDefinitions a = true) : modifiedColumn a = none := by
  cases a <;> first | rfl | cases keeps

/-- Nothing but a change of the column touches it. -/
theorem Plain.step (plain : Plain db table column comment)
    (step : CatalogStep .mySql schema db a db') (leaves : LeavesColumn table column a) :
    Plain db' table column (lastComment table column comment a) := by
  have unmodified : modifiedColumn a = none → Plain db' table column comment →
      Plain db' table column (lastComment table column comment a) := by
    intro none_changed still
    rw [lastComment, if_neg (by simp [none_changed])]
    exact still
  obtain ⟨columns, entry, there, held, counts, said⟩ := plain
  have elsewhere : ∀ {db' : ColumnCatalog}, db' table = some columns →
      Plain db' table column comment := fun same => ⟨columns, entry, same, held, counts, said⟩
  have beside : ∀ {other : String} {updated : Names String CatalogColumn},
      (other = table → updated column = some entry) →
        Plain (Function.update db other (some updated)) table column comment := by
    intro other updated kept
    by_cases own : table = other
    · subst own
      exact ⟨updated, entry, Function.update_self .., kept rfl, counts, said⟩
    · exact elsewhere (by rw [Function.update_of_ne own, there])
  cases step with
  | created name listed constraints emitted free nodup =>
    refine unmodified rfl (elsewhere ?_)
    rw [Function.update_of_ne (fun same => by simp [← same, there] at free), there]
  | dropped name =>
    refine unmodified rfl (elsewhere ?_)
    rw [Function.update_of_ne (Ne.symm leaves), there]
  | renamed old new free =>
    refine unmodified rfl (elsewhere ?_)
    rw [Function.update_of_ne (Ne.symm leaves),
      Function.update_of_ne (fun same => by simp [← same, there] at free), there]
  | added name added fillWith listed here free =>
    refine unmodified rfl (beside fun same => ?_)
    obtain rfl := Option.some.inj (here.symm.trans (same ▸ there))
    rw [Function.update_of_ne (fun same => by simp [← same, held] at free), held]
  | columnRenamed name old new listed here free =>
    refine unmodified rfl (beside fun same => ?_)
    obtain rfl := Option.some.inj (here.symm.trans (same ▸ there))
    rw [Function.update_of_ne (fun moved => leaves ⟨same, moved.symm⟩),
      Function.update_of_ne (fun same => by simp [← same, held] at free), held]
  | columnDropped name dropped listed here =>
    refine unmodified rfl (beside fun same => ?_)
    obtain rfl := Option.some.inj (here.symm.trans (same ▸ there))
    rw [Function.update_of_ne (fun moved => leaves ⟨same, moved.symm⟩), held]
  | modified a changed changes t here c found listed there' on_mysql =>
    by_cases own : actionTable a = table ∧ changed = column
    · obtain ⟨rfl, rfl⟩ := own
      rw [lastComment, if_pos ⟨rfl, changes⟩]
      exact ⟨_, _, Function.update_self .., Function.update_self .., rfl, rfl⟩
    · rw [lastComment, if_neg (by simpa [changes] using own)]
      refine beside fun same => ?_
      obtain rfl := Option.some.inj (there'.symm.trans (same ▸ there))
      rw [Function.update_of_ne (fun moved => own ⟨same, moved.symm⟩), held]
  | rebuilt a may t here emitted nodup on_sqlite => cases on_sqlite
  | uncommented table column newComment on_sqlite => cases on_sqlite
  | kept a keeps => exact unmodified (kept_unmodified keeps) (elsewhere there)

end Changed

theorem Plain.run {schema s' : Schema} {db db' : ColumnCatalog} {table column : String}
    {comment : Option String} (plain : Plain db table column comment) (reflects : Reflects db schema)
    {plan : MigrationPlan} {i : Nat} {actions : List MigrationAction}
    (known : ∀ a ∈ actions, a.isRawSql = false) {queries : List PlanQueries}
    (built : buildQueriesFrom plan i actions schema = .ok queries)
    (applied : applyActions schema actions = .ok s')
    (ran : runSteps runOnColumns db (queries.flatMap (·.statements .mySql)) = some db')
    (leaves : ∀ a ∈ actions, LeavesColumn table column a) :
    Plain db' table column (actions.foldl (lastComment table column) comment) := by
  induction actions generalizing i schema db queries comment with
  | nil =>
    obtain rfl := Except.ok.inj built
    obtain rfl := Option.some.inj ran
    exact plain
  | cons a rest ih =>
    obtain ⟨own, later, rfl, here, tail⟩ := built_cons built
    rw [apply_actions_cons] at applied
    obtain ⟨next, stepped, replayed⟩ := bind_ok applied
    rw [List.flatMap_cons, run_steps_append] at ran
    obtain ⟨mid, first, second⟩ := Option.bind_eq_some_iff.mp ran
    obtain ⟨stays, others⟩ := List.forall_mem_cons.mp leaves
    obtain ⟨here_known, later_known⟩ := List.forall_mem_cons.mp known
    have step := mysql_step reflects.names here_known stepped (here .mySql) first
    have after := reflects.step (by decide) here_known stepped (here .mySql) first
    obtain ⟨_, rfl⟩ := to_except_ok.mp stepped
    exact ih (plain.step step stays) after later_known tail replayed second others

end Vespertide
