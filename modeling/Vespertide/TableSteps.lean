import Vespertide.TableDiff
import Vespertide.Support.Positions

/-!
The steps in the block of one table: the columns a constraint action meets, and
the columns and constraints an added column meets.
-/
namespace Vespertide
open Components AppendMissing Positions

def isConstraintAction : MigrationAction → Bool
  | .addConstraint _ _ => true
  | .removeConstraint _ _ => true
  | .replaceConstraint _ _ _ => true
  | _ => false

theorem constraint_step_names {a : MigrationAction} (constrains : isConstraintAction a = true)
    {t t' : TableDef} (nodup : t.columnNames.Nodup) (step : editStep a t = some t') :
    t'.columnNames = t.columnNames := by
  cases a with
  | addConstraint table c =>
    simp only [editStep, tableEdit, addConstraintTo, Outcome.ok, Outcome.toOption, if_true,
      Option.some.injEq] at step
    subst step
    split <;> rfl
  | removeConstraint table c =>
    simp only [editStep, tableEdit, removeConstraintFrom, Outcome.ok, Outcome.toOption, if_true,
      Option.some.injEq] at step
    subst step
    simp only [TableDef.columnNames, clear_inline_eq table c nodup, List.map_map]
    exact List.map_congr_left fun d _ => clear_column_name table c d
  | replaceConstraint table old new =>
    by_cases present : old ∈ t.constraints
    · rw [step_replace nodup present, Option.some.injEq] at step
      subst step
      simp only [TableDef.columnNames, List.map_map]
      exact List.map_congr_left fun d _ => clear_column_name table old d
    · rw [step_replace_absent present] at step
      cases step
  | _ => cases constrains

theorem constraint_run_names {actions : List MigrationAction}
    (constrain : ∀ a ∈ actions, isConstraintAction a = true) {t t' : TableDef}
    (nodup : t.columnNames.Nodup) (ran : run editStep actions t = some t') :
    t'.columnNames = t.columnNames := by
  induction actions generalizing t with
  | nil =>
    obtain rfl := Option.some.inj ran
    rfl
  | cons a actions ih =>
    obtain ⟨head, tail⟩ := List.forall_mem_cons.mp constrain
    obtain ⟨next, step, rest⟩ := Option.bind_eq_some_iff.mp ran
    have same := constraint_step_names head nodup step
    rw [ih tail (same ▸ nodup) rest, same]

section Block
variable {name : String} {t u r : TableDef} {edits front rest : List MigrationAction}
  {added : List TableConstraint} {a : MigrationAction}
  (perm : edits.Perm (attributeEdits name t.columns u.columns))
  (split : tableActions name t u edits added = front ++ a :: rest) (regular : Regular t)
  (ran : run editStep front t = some r)
include perm split regular ran

theorem constraint_meets_columns (constrains : isConstraintAction a = true)
    (u_nodup : u.columnNames.Nodup) (col : String) : col ∈ r.columnNames ↔ col ∈ u.columnNames := by
  have no_constraint : a ∉ columnActions name t u edits := by
    intro mem
    simp only [columnActions, List.mem_append, List.mem_map] at mem
    rcases mem with (⟨c, _, rfl⟩ | edit) | ⟨c, _, rfl⟩
    · cases constrains
    · obtain ⟨column, f, about, _⟩ := kept_edits perm a edit
      cases a <;> first | (cases about; done) | cases constrains
    · cases constrains
  simp only [tableActions, List.append_assoc] at split
  obtain ⟨constraints, rfl, tail⟩ := split_after no_constraint split
  have constrain : ∀ b ∈ constraints, isConstraintAction b = true := by
    intro b mem
    have listed : b ∈ replacements name t u ++
        ((removals name t u).map (MigrationAction.removeConstraint name ·) ++
          added.map (MigrationAction.addConstraint name ·)) := tail ▸ List.mem_append_left _ mem
    simp only [List.mem_append, List.mem_map] at listed
    rcases listed with replaces | ⟨c, _, rfl⟩ | ⟨c, _, rfl⟩
    · obtain ⟨old, new, rfl, _⟩ := replacements_replace b replaces
      rfl
    · rfl
    · rfl
  rw [run_append, run_column_actions regular perm, Option.bind_some] at ran
  rw [constraint_run_names constrain (columns_done_nodup regular) ran]
  simp only [TableDef.columnNames, columnsDone, List.map_append, kept_names]
  rw [← List.map_append]
  exact mem_kept_added u_nodup

/-- An added column meets the columns that stay, and what is promoted once it is there
    was carried along and had not been before. -/
theorem addition_meets {column : ColumnDef} (adds : a = .addColumn name column none) :
    (∀ c ∈ keptColumns t u, c.name ∈ r.columnNames) ∧
      ∀ c ∈ (addColumnTo name column r).state.constraints, c ∉ r.constraints →
        c ∈ carriedConstraints t u ∧ c ∉ shrunkConstraints t u := by
  subst adds
  have not_kept : MigrationAction.addColumn name column none ∉
      (droppedColumns t u).map (MigrationAction.deleteColumn name ·) ++ edits := by
    intro mem
    rcases List.mem_append.mp mem with drop | edit
    · obtain ⟨c, _, same⟩ := List.mem_map.mp drop
      cases same
    · obtain ⟨_, f, about, _⟩ := kept_edits perm _ edit
      cases about
  have not_later : MigrationAction.addColumn name column none ∉
      replacements name t u ++ ((removals name t u).map (MigrationAction.removeConstraint name ·) ++
        added.map (MigrationAction.addConstraint name ·)) := by
    intro mem
    simp only [List.mem_append, List.mem_map, reduceCtorEq, and_false, exists_false, or_self,
      or_false] at mem
    obtain ⟨old, new, same, _⟩ := replacements_replace _ mem
    cases same
  simp only [tableActions, columnActions, List.append_assoc] at split
  rw [← List.append_assoc] at split
  obtain ⟨later, rfl, tail⟩ := split_after not_kept split
  obtain ⟨_, additions⟩ := split_before not_later tail
  obtain ⟨done, c, todo, listed, same, rfl⟩ := split_map additions
  obtain rfl : c = column := by simpa using same
  rw [run_append, run_kept_actions regular perm, Option.bind_some] at ran
  have grown : addedColumns t u = (done ++ [c]) ++ todo := by simp [listed]
  have next : run editStep ((done ++ [c]).map (.addColumn name · none)) _ = _ :=
    run_added_columns regular edits grown
  rw [List.map_append, run_append, ran, Option.bind_some] at next
  rw [run_added_columns regular edits listed, Option.some.injEq] at ran
  have carried : (addColumnTo name c r).state.constraints = carriedConstraints t u := by
    have nonempty : addedColumns t u ≠ [] := by simp [listed]
    obtain ⟨t', step, last⟩ := Option.bind_eq_some_iff.mp next
    obtain rfl := Option.some.inj last
    have reached : (addColumnTo name c r).state = _ := Outcome.to_option_state step
    rw [reached]
    simp [carriedConstraints, nonempty]
  constructor
  · intro d kept
    rw [← ran]
    simp only [TableDef.columnNames, List.map_append, kept_names]
    exact List.mem_append_left _ (List.mem_map_of_mem kept)
  · intro d mem fresh
    rw [carried] at mem
    refine ⟨mem, fun shrunk => fresh ?_⟩
    rw [← ran]
    dsimp only
    split
    · exact shrunk
    · exact mem_append_missing_left shrunk

end Block

end Vespertide
