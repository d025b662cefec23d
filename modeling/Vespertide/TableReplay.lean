import Vespertide.Clearing
import Vespertide.ConstraintDiff
import Vespertide.Replay

/-!
Replay of the actions on one table that stays: columns dropped, attributes
changed, columns added, then constraints replaced, removed and added. Each kind
of action has one lemma that says when a run of them gets through and what it
leaves.
-/
namespace Vespertide
open Components AppendMissing

def editStep (a : MigrationAction) (t : TableDef) : Option TableDef := (tableEdit a t).toOption

def isEdit : MigrationAction → Bool
  | .createTable _ _ _ => false
  | .deleteTable _ => false
  | a => isLocal a

theorem step_table_edit {a : MigrationAction} (edit : isEdit a = true) (t : TableDef) :
    stepTable a (some t) = (editStep a t).map some := by
  cases a <;> first | rfl | simp [isEdit] at edit

theorem run_edits {actions : List MigrationAction} (edits : ∀ a ∈ actions, isEdit a = true)
    (t : TableDef) : run stepTable actions (some t) = (run editStep actions t).map some := by
  induction actions generalizing t with
  | nil => rfl
  | cons a actions ih =>
    simp only [run_cons, step_table_edit (edits a List.mem_cons_self)]
    cases editStep a t with
    | none => rfl
    | some t' => exact ih (fun b mem => edits b (List.mem_cons_of_mem a mem)) t'

/-! Dropped columns -/

theorem step_delete_column {table column : String} {t : TableDef}
    (present : column ∈ t.columnNames) :
    editStep (.deleteColumn table column) t = some { t with
      columns := t.columns.filter (·.name ≠ column)
      constraints := dropColumnFromConstraints t.constraints column } := by
  obtain ⟨c, mem, named⟩ := List.mem_map.mp present
  have shorter : (t.columns.filter (·.name ≠ column)).length ≠ t.columns.length := by
    intro same
    have all := List.length_filter_eq_length_iff.mp same c mem
    simp [named] at all
  simp only [editStep, tableEdit, deleteColumnFrom, shorter, ↓reduceIte, Outcome.ok,
    Outcome.toOption]

theorem run_delete_columns {table : String} {columns : List String} (nodup : columns.Nodup)
    {t : TableDef} (present : ∀ c ∈ columns, c ∈ t.columnNames) :
    run editStep (columns.map (.deleteColumn table ·)) t = some { t with
      columns := t.columns.filter (·.name ∉ columns)
      constraints := columns.foldl dropColumnFromConstraints t.constraints } := by
  induction columns generalizing t with
  | nil => simp
  | cons column columns ih =>
    obtain ⟨fresh, rest⟩ := List.nodup_cons.mp nodup
    rw [List.map_cons, run_cons, step_delete_column (present column List.mem_cons_self)]
    refine (ih rest ?_).trans ?_
    · intro c mem
      obtain ⟨def_, here, named⟩ := List.mem_map.mp (present c (List.mem_cons_of_mem column mem))
      have other : def_.name ≠ column := by
        rintro same
        exact fresh (same.symm.trans named ▸ mem)
      exact List.mem_map.mpr ⟨def_, List.mem_filter.mpr ⟨here, by simpa using other⟩, named⟩
    · simp only [List.filter_filter, List.foldl_cons, Option.some.injEq, TableDef.mk.injEq,
        and_true, true_and]
      exact List.filter_congr fun c _ => by simp [Bool.and_comm]

/-! Added columns -/

theorem step_add_column {table : String} {column : ColumnDef} {fillWith : Option String}
    {t : TableDef} (nodup : (t.columns.map (·.name)).Nodup) (inlines : ∀ c ∈ t.columns, InlineOk c)
    (fresh : column.name ∉ t.columnNames) (plain : column.Plain) :
    editStep (.addColumn table column fillWith) t = some { t with
      columns := t.columns ++ [column]
      constraints := appendMissing covers (candidates t.columns) t.constraints } := by
  have absent : t.columns.any (·.name = column.name) = false := by
    simpa [TableDef.columnNames] using fresh
  have grown_nodup : ({ t with columns := t.columns ++ [column] } : TableDef).columnNames.Nodup := by
    simp only [TableDef.columnNames, List.map_append, List.map_cons, List.map_nil]
    exact List.nodup_append.mpr ⟨nodup, by simp, by
      rintro a mem b here rfl
      exact fresh (List.mem_singleton.mp here ▸ mem)⟩
  have grown_inlines : ∀ c ∈ t.columns ++ [column], InlineOk c := by
    intro c mem
    rcases List.mem_append.mp mem with old | new
    · exact inlines c old
    · exact List.mem_singleton.mp new ▸ Plain.inline_ok plain
  have same : candidates (t.columns ++ [column]) = candidates t.columns :=
    candidates_append_plain (by simpa using plain)
  simp only [editStep, tableEdit, addColumnTo, absent, Bool.false_eq_true, ↓reduceIte,
    normalize_eq grown_nodup grown_inlines, promoted, same]
  rfl

theorem run_add_columns {table : String} {added : List ColumnDef} (plain : ∀ c ∈ added, c.Plain)
    {t : TableDef} (nodup : ((t.columns ++ added).map (·.name)).Nodup)
    (inlines : ∀ c ∈ t.columns, InlineOk c) :
    run editStep (added.map (.addColumn table · none)) t = some { t with
      columns := t.columns ++ added
      constraints := if added = [] then t.constraints
        else appendMissing covers (candidates t.columns) t.constraints } := by
  induction added generalizing t with
  | nil => simp
  | cons column added ih =>
    have own := plain column List.mem_cons_self
    have table_nodup : (t.columns.map (·.name)).Nodup := by
      rw [List.map_append] at nodup
      exact (List.nodup_append.mp nodup).1
    have fresh : column.name ∉ t.columnNames := by
      rw [List.map_append] at nodup
      intro mem
      exact (List.nodup_append.mp nodup).2.2 _ mem column.name (by simp) rfl
    rw [List.map_cons, run_cons, step_add_column table_nodup inlines fresh own]
    have rest := ih (fun c mem => plain c (List.mem_cons_of_mem column mem))
      (t := { t with
        columns := t.columns ++ [column]
        constraints := appendMissing covers (candidates t.columns) t.constraints })
      (by simpa using nodup) (by
        intro c mem
        rcases List.mem_append.mp mem with old | new
        · exact inlines c old
        · exact List.mem_singleton.mp new ▸ Plain.inline_ok own)
    have same : candidates (t.columns ++ [column]) = candidates t.columns :=
      candidates_append_plain (by simpa using own)
    refine rest.trans ?_
    simp only [same, append_missing_idempotent candidate_covers_itself, ite_self,
      List.append_assoc, List.singleton_append, reduceCtorEq, ↓reduceIte]

/-! A replaced constraint -/

theorem replace_first_mem {old new : TableConstraint} {constraints : List TableConstraint}
    (present : old ∈ constraints) (c : TableConstraint) :
    c ∈ replaceFirst old new constraints ↔ c = new ∨ c ∈ constraints.erase old := by
  induction constraints with
  | nil => simp at present
  | cons d rest ih =>
    unfold replaceFirst
    by_cases here : d = old
    · subst here
      simp
    · have later : old ∈ rest := by simpa [Ne.symm here] using present
      rw [if_neg here, List.mem_cons, ih later, List.erase_cons_tail (by simpa using here),
        List.mem_cons, or_left_comm]

end Vespertide
