import Vespertide.Apply
import Vespertide.Support.Components

/-!
Replay seen table by table. Every action of a computed plan concerns one table,
so with distinct table names a replay is determined by what it does to each.
-/
namespace Vespertide
open Components

def tableAt (schema : Schema) (name : String) : Option TableDef := schema.find? (·.name = name)

def TableNamesNodup (schema : Schema) : Prop := (schema.map (·.name)).Nodup

instance (schema : Schema) : Decidable (TableNamesNodup schema) :=
  inferInstanceAs (Decidable (schema.map (·.name)).Nodup)

def tableEdit : MigrationAction → TableDef → Outcome TableDef
  | .addColumn table column _ => addColumnTo table column
  | .renameColumn table old new => renameColumnIn table old new
  | .deleteColumn table column => deleteColumnFrom table column
  | .modifyColumnType table column newType _ _ _ =>
      onColumn table column fun c => { c with type := newType }
  | .modifyColumnNullable table column nullable _ _ =>
      onColumn table column fun c => { c with nullable }
  | .modifyColumnDefault table column newDefault _ =>
      onColumn table column fun c => { c with default := newDefault.map .string }
  | .modifyColumnComment table column newComment =>
      onColumn table column fun c => { c with comment := newComment }
  | .addConstraint _ constraint => addConstraintTo constraint
  | .removeConstraint table constraint => removeConstraintFrom table constraint
  | .replaceConstraint table old new => replaceConstraintIn table old new
  | .remapEnumValues table column mapping =>
      onColumn table column fun c => { c with type := remapType mapping c.type }
  | _ => .ok

def Outcome.toOption (r : Outcome σ) : Option σ := if r.error = none then some r.state else none

theorem Outcome.to_option_state {r : Outcome σ} {s : σ} (reached : r.toOption = some s) :
    r.state = s := by
  unfold Outcome.toOption at reached
  split at reached
  · exact Option.some.inj reached
  · cases reached

def stepTable (a : MigrationAction) (t : Option TableDef) : Option (Option TableDef) :=
  match a with
  | .createTable table columns constraints =>
      if t.isSome then none
      else
        match (TableDef.mk table none columns constraints).normalize with
        | .ok normalized => some (some normalized)
        | .error _ => none
  | .deleteTable _ => if t.isSome then some none else none
  | a => t.bind fun t => (tableEdit a t).toOption.map some

def isLocal : MigrationAction → Bool
  | .renameTable _ _ => false
  | .rawSql _ => false
  | .dataMigration _ _ => false
  | _ => true

def actionTable (a : MigrationAction) : String := a.tableName.getD ""

theorem table_at_name {schema : Schema} {name : String} {t : TableDef}
    (found : tableAt schema name = some t) : t ∈ schema ∧ t.name = name :=
  ⟨List.mem_of_find?_eq_some found, by simpa using List.find?_some found⟩

theorem table_at_none {schema : Schema} {name : String} :
    tableAt schema name = none ↔ ∀ t ∈ schema, t.name ≠ name := by
  simp [tableAt, List.find?_eq_none]

theorem table_at_mem {schema : Schema} (nodup : TableNamesNodup schema) {t : TableDef}
    (mem : t ∈ schema) : tableAt schema t.name = some t := by
  induction schema with
  | nil => simp at mem
  | cons first rest ih =>
    obtain ⟨fresh, tail⟩ := List.nodup_cons.mp nodup
    rcases List.mem_cons.mp mem with rfl | later
    · simp [tableAt]
    · have other : first.name ≠ t.name := fun same =>
        fresh (List.mem_map.mpr ⟨t, later, same.symm⟩)
      simpa [tableAt, other] using ih tail later

/-! One table of the schema -/

theorem on_table_absent {schema : Schema} {name : String} (absent : tableAt schema name = none)
    (f : TableDef → Outcome TableDef) : (onTable name f schema).error ≠ none := by
  induction schema with
  | nil => simp [onTable, Outcome.fail]
  | cons t rest ih =>
    rw [table_at_none] at absent ih
    have other := absent t List.mem_cons_self
    simpa [onTable, other] using ih fun t' mem => absent t' (List.mem_cons_of_mem t mem)

theorem on_table_error {schema : Schema} {name : String} {t : TableDef}
    (found : tableAt schema name = some t) (f : TableDef → Outcome TableDef) :
    (onTable name f schema).error = (f t).error := by
  induction schema with
  | nil => simp [tableAt] at found
  | cons first rest ih =>
    by_cases here : first.name = name
    · obtain rfl : first = t := by simpa [tableAt, here] using found
      simp [onTable, here]
    · simpa [onTable, here] using ih (by simpa [tableAt, here] using found)

theorem on_table_names {schema : Schema} {name : String} {t : TableDef}
    (found : tableAt schema name = some t) {f : TableDef → Outcome TableDef}
    (named : (f t).state.name = name) :
    (onTable name f schema).state.map (·.name) = schema.map (·.name) := by
  induction schema with
  | nil => rfl
  | cons first rest ih =>
    by_cases here : first.name = name
    · obtain rfl : first = t := by simpa [tableAt, here] using found
      simp [onTable, here, named]
    · simpa [onTable, here] using ih (by simpa [tableAt, here] using found)

theorem on_table_at {schema : Schema} {name : String} {t : TableDef}
    (found : tableAt schema name = some t) {f : TableDef → Outcome TableDef}
    (named : (f t).state.name = name) :
    tableAt (onTable name f schema).state =
      Function.update (tableAt schema) name (some (f t).state) := by
  funext k
  induction schema with
  | nil => simp [tableAt] at found
  | cons first rest ih =>
    by_cases here : first.name = name
    · obtain rfl : first = t := by simpa [tableAt, here] using found
      by_cases same : k = name
      · subst same
        simp [onTable, here, tableAt, named]
      · simp [onTable, here, tableAt, named, same, Ne.symm same]
    · have step := ih (by simpa [tableAt, here] using found)
      by_cases same : k = name
      · subst same
        simpa [onTable, here, tableAt] using step
      · simp only [ne_eq, same, not_false_eq_true, Function.update_of_ne] at step ⊢
        simp only [onTable, here, ↓reduceIte]
        by_cases first_one : first.name = k
        · simp [tableAt, first_one]
        · simpa [tableAt, first_one] using step

theorem table_edit_name {a : MigrationAction} {t : TableDef} (ok : (tableEdit a t).error = none) :
    (tableEdit a t).state.name = t.name := by
  cases a with
  | addColumn table column fillWith =>
    simp only [tableEdit, addColumnTo] at ok ⊢
    split
    · rfl
    · rename_i fresh
      simp only [fresh, Bool.false_eq_true, ↓reduceIte] at ok
      split
      · rename_i failed
        simp [failed, Outcome.fail] at ok
      · rename_i normal
        exact (normalize_fields normal).1
  | renameColumn table old new => simp only [tableEdit, renameColumnIn]; split <;> rfl
  | deleteColumn table column => simp only [tableEdit, deleteColumnFrom]; split <;> rfl
  | modifyColumnType table column newType => simp only [tableEdit, onColumn]; split <;> rfl
  | modifyColumnNullable table column nullable => simp only [tableEdit, onColumn]; split <;> rfl
  | modifyColumnDefault table column newDefault => simp only [tableEdit, onColumn]; split <;> rfl
  | modifyColumnComment table column newComment => simp only [tableEdit, onColumn]; split <;> rfl
  | remapEnumValues table column mapping => simp only [tableEdit, onColumn]; split <;> rfl
  | addConstraint table constraint => simp only [tableEdit, addConstraintTo, Outcome.ok]; split <;> rfl
  | removeConstraint table constraint => rfl
  | replaceConstraint table old new => simp only [tableEdit, replaceConstraintIn]; split <;> rfl
  | _ => rfl

/-! One action -/

/-- The schema after an action, with distinct names, seen table by table. -/
structure Replays (r : Except PlannerError Schema) (tables : Option (String → Option TableDef)) : Prop where
  view : r.toOption.map tableAt = tables
  nodup : ∀ s', r = .ok s' → TableNamesNodup s'

theorem edit_replays {schema : Schema} (nodup : TableNamesNodup schema) {a : MigrationAction}
    {name : String} (named : actionTable a = name)
    (edits : applyAction schema a = onTable name (tableEdit a) schema)
    (steps : ∀ t, stepTable a t = t.bind fun t => (tableEdit a t).toOption.map some) :
    Replays (applyAction schema a).toExcept (stepAll stepTable actionTable a (tableAt schema)) := by
  simp only [edits, stepAll, named, steps]
  cases found : tableAt schema name with
  | none =>
    obtain ⟨e, failed⟩ := Option.ne_none_iff_exists'.mp (on_table_absent found (tableEdit a))
    simp only [Outcome.toExcept, failed]
    exact ⟨rfl, by simp⟩
  | some t =>
    have error := on_table_error found (tableEdit a)
    cases ok : (tableEdit a t).error with
    | some e =>
      rw [ok] at error
      simp only [Outcome.toExcept, error, Outcome.toOption, ok, Option.bind_some, reduceCtorEq,
        ↓reduceIte]
      exact ⟨rfl, by simp⟩
    | none =>
      rw [ok] at error
      have own := (table_edit_name ok).trans (table_at_name found).2
      simp only [Outcome.toExcept, error, Outcome.toOption, ok, Option.bind_some, ↓reduceIte]
      refine ⟨?_, ?_⟩
      · simp [Except.toOption, on_table_at found own]
      · rintro s' rfl'
        obtain rfl := Except.ok.inj rfl'
        rwa [TableNamesNodup, on_table_names found own]

theorem create_replays {schema : Schema} (nodup : TableNamesNodup schema) (table : String)
    (columns : List ColumnDef) (constraints : List TableConstraint) :
    Replays (createTable schema table columns constraints).toExcept
      (stepAll stepTable actionTable (.createTable table columns constraints) (tableAt schema)) := by
  simp only [stepAll, actionTable, MigrationAction.tableName, Option.getD_some, stepTable]
  rcases Option.eq_none_or_eq_some (tableAt schema table) with absent | ⟨t, found⟩
  · have free := table_at_none.mp absent
    have untaken : schema.any (·.name = table) = false := by simpa using free
    simp only [createTable, untaken, absent, Option.isSome_none, Bool.false_eq_true, ↓reduceIte]
    cases normal : (TableDef.mk table none columns constraints).normalize with
    | error e => exact ⟨rfl, by simp [Outcome.fail, Outcome.toExcept]⟩
    | ok normalized =>
      have named : normalized.name = table := (normalize_fields normal).1
      refine ⟨?_, ?_⟩
      · simp only [Outcome.ok, Outcome.toExcept, Except.toOption, Option.map_some,
          Option.some.injEq]
        funext k
        by_cases same : k = table
        · subst same
          have skipped : schema.find? (·.name = k) = none := absent
          simp [tableAt, List.find?_append, skipped, named]
        · have other : normalized.name ≠ k := by rw [named]; exact Ne.symm same
          simp [tableAt, List.find?_append, same, other]
      · rintro s' rfl'
        obtain rfl := Except.ok.inj rfl'
        show ((schema ++ [normalized]).map (·.name)).Nodup
        rw [List.map_append]
        refine List.nodup_append.mpr ⟨nodup, by simp, ?_⟩
        rintro a mem b here rfl
        obtain rfl : a = normalized.name := by simpa using here
        obtain ⟨t, present, same⟩ := List.mem_map.mp mem
        exact free t present (same.trans named)
  · obtain ⟨mem, named⟩ := table_at_name found
    have taken : schema.any (·.name = table) = true := List.any_eq_true.mpr ⟨t, mem, by simpa⟩
    simp only [createTable, taken, found, ↓reduceIte, Option.isSome_some]
    exact ⟨rfl, by simp [Outcome.fail, Outcome.toExcept]⟩

theorem delete_replays {schema : Schema} (nodup : TableNamesNodup schema) (table : String) :
    Replays (deleteTable schema table).toExcept
      (stepAll stepTable actionTable (.deleteTable table) (tableAt schema)) := by
  simp only [stepAll, actionTable, MigrationAction.tableName, Option.getD_some, stepTable]
  have kept_nodup : TableNamesNodup (schema.filter (·.name ≠ table)) :=
    (List.filter_sublist.map _).nodup nodup
  rcases Option.eq_none_or_eq_some (tableAt schema table) with absent | ⟨t, found⟩
  · have same : schema.filter (·.name ≠ table) = schema := by
      simpa [List.filter_eq_self] using table_at_none.mp absent
    simp only [deleteTable, same, absent, ↓reduceIte, Option.isSome_none, Bool.false_eq_true]
    exact ⟨rfl, by simp [Outcome.fail, Outcome.toExcept]⟩
  · obtain ⟨mem, named⟩ := table_at_name found
    have shorter : (schema.filter (·.name ≠ table)).length ≠ schema.length := by
      intro same
      have all := List.length_filter_eq_length_iff.mp same t mem
      simp [named] at all
    simp only [deleteTable, shorter, found, ↓reduceIte, Option.isSome_some]
    refine ⟨?_, ?_⟩
    · simp only [Outcome.ok, Outcome.toExcept, Except.toOption, Option.map_some, Option.some.injEq]
      funext k
      by_cases same : k = table
      · subst same
        simp [tableAt, List.find?_eq_none]
      · simp only [tableAt, ne_eq, same, not_false_eq_true, Function.update_of_ne,
          List.find?_filter]
        congr 1
        funext t
        by_cases here : t.name = k
        · simp [here, same]
        · simp [here]
    · rintro s' rfl'
      obtain rfl := Except.ok.inj rfl'
      exact kept_nodup

theorem action_replays {schema : Schema} (nodup : TableNamesNodup schema) {a : MigrationAction}
    (is_local : isLocal a = true) :
    Replays (applyAction schema a).toExcept
      (stepAll stepTable actionTable a (tableAt schema)) := by
  cases a with
  | createTable table columns constraints => exact create_replays nodup table columns constraints
  | deleteTable table => exact delete_replays nodup table
  | renameTable old new => simp [isLocal] at is_local
  | rawSql sql => simp [isLocal] at is_local
  | dataMigration sql description => simp [isLocal] at is_local
  | _ => exact edit_replays nodup rfl rfl fun _ => rfl

theorem local_step {s s' : Schema} {a : MigrationAction} (nodup : TableNamesNodup s)
    (is_local : isLocal a = true) (ok : (applyAction s a).toExcept = .ok s') :
    ∃ t', stepTable a (tableAt s (actionTable a)) = some t' ∧
      tableAt s' = Function.update (tableAt s) (actionTable a) t' := by
  have view := (action_replays nodup is_local).view
  rw [ok] at view
  obtain ⟨t', stepped, updated⟩ := Option.map_eq_some_iff.mp view.symm
  exact ⟨t', stepped, updated.symm⟩

/-! A run of actions -/

theorem actions_replay {schema : Schema} (nodup : TableNamesNodup schema)
    {actions : List MigrationAction} (are_local : ∀ a ∈ actions, isLocal a = true) :
    Replays (applyActions schema actions)
      (Components.runAll stepTable actionTable actions (tableAt schema)) := by
  induction actions generalizing schema with
  | nil =>
    refine ⟨rfl, ?_⟩
    rintro s' rfl'
    obtain rfl := Except.ok.inj rfl'
    exact nodup
  | cons a actions ih =>
    obtain ⟨view, next_nodup⟩ := action_replays nodup (are_local a List.mem_cons_self)
    unfold applyActions
    simp only [List.foldlM_cons, Components.runAll, run_cons]
    cases applied : (applyAction schema a).toExcept with
    | error e =>
      simp only [applied, Except.toOption, Option.map_none] at view
      rw [← view]
      exact ⟨rfl, by simp [bind, Except.bind]⟩
    | ok next =>
      simp only [applied, Except.toOption, Option.map_some] at view
      rw [← view]
      obtain ⟨rest_view, rest_nodup⟩ := ih (next_nodup next applied) fun a' mem =>
        are_local a' (List.mem_cons_of_mem a mem)
      exact ⟨rest_view, rest_nodup⟩

section Runs
variable {schema : Schema} (nodup : TableNamesNodup schema) {actions : List MigrationAction}
  (are_local : ∀ a ∈ actions, isLocal a = true)
include nodup are_local

theorem replay_ok_iff :
    (∃ s', applyActions schema actions = .ok s') ↔
      ∀ name, ∃ t, run stepTable (actionsAt actionTable name actions) (tableAt schema name) =
        some t := by
  rw [← run_all_isSome_iff, ← (actions_replay nodup are_local).view]
  cases applyActions schema actions with
  | error e => simp [Except.toOption]
  | ok s' => simp [Except.toOption]

theorem replay_table {s' : Schema} (ok : applyActions schema actions = .ok s') (name : String) :
    run stepTable (actionsAt actionTable name actions) (tableAt schema name) =
      some (tableAt s' name) := by
  have view := (actions_replay nodup are_local).view
  rw [ok] at view
  exact (run_all_some_iff _ _ _).mp view.symm name

theorem replay_nodup {s' : Schema} (ok : applyActions schema actions = .ok s') :
    TableNamesNodup s' := (actions_replay nodup are_local).nodup s' ok

end Runs

/-! The baseline of a computed plan -/

theorem renamed_names {old new : String} {schema : Schema} {name : String}
    (mem : name ∈ (onTable old (fun t => .ok { t with name := new }) schema).state.map (·.name)) :
    name = new ∨ name ∈ schema.map (·.name) := by
  induction schema with
  | nil => simp [onTable, Outcome.fail] at mem
  | cons t rest ih =>
    by_cases here : t.name = old
    · simp only [onTable, here, ↓reduceIte, Outcome.ok, List.map_cons, List.mem_cons] at mem
      rcases mem with same | later
      · exact .inl same
      · exact .inr (List.mem_cons_of_mem _ later)
    · simp only [onTable, here, ↓reduceIte, List.map_cons, List.mem_cons] at mem
      rcases mem with same | later
      · exact .inr (List.mem_cons.mpr (.inl same))
      · exact (ih later).imp_right (List.mem_cons_of_mem _)

theorem renamed_nodup {old new : String} {schema : Schema} (nodup : TableNamesNodup schema)
    (free : new ∉ schema.map (·.name)) :
    TableNamesNodup (onTable old (fun t => .ok { t with name := new }) schema).state := by
  induction schema with
  | nil => exact nodup
  | cons t rest ih =>
    obtain ⟨fresh, tail⟩ := List.nodup_cons.mp nodup
    simp only [List.map_cons, List.mem_cons, not_or] at free
    by_cases here : t.name = old
    · simp only [onTable, here, ↓reduceIte, Outcome.ok]
      exact List.nodup_cons.mpr ⟨free.2, tail⟩
    · simp only [onTable, here, ↓reduceIte]
      refine List.nodup_cons.mpr ⟨?_, ih tail free.2⟩
      intro mem
      rcases renamed_names mem with same | old_name
      · exact free.1 same.symm
      · exact fresh old_name

theorem rename_nodup {schema s' : Schema} (nodup : TableNamesNodup schema) {old new : String}
    (ok : (renameTable schema old new).toExcept = .ok s') : TableNamesNodup s' := by
  simp only [renameTable] at ok
  split at ok
  · simp [Outcome.fail, Outcome.toExcept] at ok
  · rename_i untaken
    split at ok
    · simp [Outcome.fail, Outcome.toExcept] at ok
    · obtain rfl := Except.ok.inj ok
      simp only [TableNamesNodup, Outcome.ok, List.map_map]
      exact renamed_nodup nodup (by simpa using untaken)

theorem apply_action_nodup {schema s' : Schema} (nodup : TableNamesNodup schema)
    {a : MigrationAction} (ok : (applyAction schema a).toExcept = .ok s') : TableNamesNodup s' := by
  cases a with
  | renameTable old new => exact rename_nodup nodup ok
  | rawSql sql =>
    obtain rfl := Except.ok.inj ok
    exact nodup
  | dataMigration sql description =>
    obtain rfl := Except.ok.inj ok
    exact nodup
  | _ => exact (action_replays nodup rfl).nodup s' ok

theorem apply_actions_nodup {schema s' : Schema} (nodup : TableNamesNodup schema)
    {actions : List MigrationAction} (ok : applyActions schema actions = .ok s') :
    TableNamesNodup s' := by
  induction actions generalizing schema with
  | nil =>
    obtain rfl := Except.ok.inj ok
    exact nodup
  | cons a actions ih =>
    unfold applyActions at ok ih
    rw [List.foldlM_cons] at ok
    cases applied : (applyAction schema a).toExcept with
    | error e => simp [applied, bind, Except.bind] at ok
    | ok next =>
      rw [applied] at ok
      exact ih (apply_action_nodup nodup applied) ok

theorem schema_from_plans_nodup {plans : List MigrationPlan} {schema : Schema}
    (replayed : schemaFromPlans plans = .ok schema) : TableNamesNodup schema := by
  have start : TableNamesNodup ([] : Schema) := List.nodup_nil
  unfold schemaFromPlans at replayed
  generalize ([] : Schema) = first at start replayed
  induction plans generalizing first with
  | nil =>
    obtain rfl := Except.ok.inj replayed
    exact start
  | cons plan plans ih =>
    rw [List.foldlM_cons] at replayed
    cases applied : applyActions first plan.actions with
    | error e => simp [applied, bind, Except.bind] at replayed
    | ok next =>
      rw [applied] at replayed
      exact ih next (apply_actions_nodup start applied) replayed

end Vespertide
