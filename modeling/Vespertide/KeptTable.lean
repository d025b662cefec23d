import Vespertide.ColumnEdits
import Vespertide.ConstraintEdits

/-!
A table that stays, under the actions of its difference. Dropping columns takes
constraints along or shrinks them, and adding a column promotes the declarations
of the others once more; the constraint actions meet what that leaves.
-/
namespace Vespertide
open Components AppendMissing

def droppedColumns (t u : TableDef) : List String :=
  (columnKeys t.columns).filter fun col => (columnGet u.columns col).isNone

def keptColumns (t u : TableDef) : List ColumnDef :=
  t.columns.filter (·.name ∉ droppedColumns t u)

def addedColumns (t u : TableDef) : List ColumnDef :=
  (columnKeys u.columns).filterMap fun col =>
    match columnGet u.columns col with
    | some toDef => if (columnGet t.columns col).isNone then some toDef.stripInline else none
    | none => none

def shrunkConstraints (t u : TableDef) : List TableConstraint :=
  (droppedColumns t u).foldl dropColumnFromConstraints t.constraints

/-- The constraints that the constraint actions of the difference find. -/
def carriedConstraints (t u : TableDef) : List TableConstraint :=
  if addedColumns t u = [] then shrunkConstraints t u
  else appendMissing covers (candidates (keptColumns t u)) (shrunkConstraints t u)

/-! The columns of the two tables -/

theorem mem_dropped {t u : TableDef} {col : String} :
    col ∈ droppedColumns t u ↔ col ∈ t.columnNames ∧ col ∉ u.columnNames := by
  simp only [droppedColumns, List.mem_filter, KeyedView.mem_keys, Option.isNone_iff_eq_none,
    KeyedView.get_eq_none_iff, TableDef.columnNames, List.mem_map, not_exists, not_and]

theorem mem_kept {t u : TableDef} {c : ColumnDef} :
    c ∈ keptColumns t u ↔ c ∈ t.columns ∧ c.name ∈ u.columnNames := by
  simp only [keptColumns, List.mem_filter, decide_eq_true_eq, mem_dropped, not_and, not_not]
  refine and_congr_right fun mem => ⟨fun h => h (List.mem_map_of_mem mem), fun h _ => h⟩

theorem mem_added {t u : TableDef} (nodup : u.columnNames.Nodup) {c : ColumnDef} :
    c ∈ addedColumns t u ↔
      ∃ toDef ∈ u.columns, toDef.name ∉ t.columnNames ∧ c = toDef.stripInline := by
  simp only [addedColumns, List.mem_filterMap]
  constructor
  · rintro ⟨col, _, found⟩
    split at found
    · rename_i toDef there
      obtain ⟨mem, rfl⟩ := KeyedView.get_some there
      split at found
      · rename_i absent
        refine ⟨toDef, mem, ?_, (Option.some.inj found).symm⟩
        rw [Option.isNone_iff_eq_none, KeyedView.get_eq_none_iff] at absent
        simpa [TableDef.columnNames] using absent
      · simp at found
    · simp at found
  · rintro ⟨toDef, mem, fresh, rfl⟩
    have there : columnGet u.columns toDef.name = some toDef := KeyedView.get_of_nodup nodup mem
    have absent : columnGet t.columns toDef.name = none := by
      rw [columnGet, KeyedView.get_eq_none_iff]
      simpa [TableDef.columnNames] using fresh
    exact ⟨toDef.name, KeyedView.mem_keys.mpr ⟨toDef, mem, rfl⟩, by simp [there, absent]⟩

theorem added_plain {t u : TableDef} : ∀ c ∈ addedColumns t u, c.Plain := by
  intro c mem
  obtain ⟨col, _, found⟩ := List.mem_filterMap.mp mem
  split at found
  · split at found
    · obtain rfl := Option.some.inj found
      exact ⟨rfl, rfl, rfl, rfl⟩
    · simp at found
  · simp at found

theorem added_names (t u : TableDef) : (addedColumns t u).map (·.name) =
    (columnKeys u.columns).filter fun col => (columnGet t.columns col).isNone := by
  have total : ∀ col ∈ columnKeys u.columns, ∃ toDef, columnGet u.columns col = some toDef := by
    intro col mem
    exact Option.isSome_iff_exists.mp (KeyedView.get_isSome_iff.mpr (KeyedView.mem_keys.mp mem))
  simp only [addedColumns]
  generalize columnKeys u.columns = ks at total
  induction ks with
  | nil => rfl
  | cons k ks ih =>
    obtain ⟨toDef, there⟩ := total k List.mem_cons_self
    have named := (KeyedView.get_some there).2
    have rest := ih fun col mem => total col (List.mem_cons_of_mem k mem)
    cases absent : (columnGet t.columns k).isNone with
    | true =>
      have stripped : toDef.stripInline.name = k := named
      simp only [List.filterMap_cons, there, absent, ↓reduceIte, List.map_cons, rest,
        List.filter_cons, stripped]
    | false =>
      simp only [List.filterMap_cons, there, absent, Bool.false_eq_true, ↓reduceIte, rest,
        List.filter_cons]

theorem kept_added_nodup {t u : TableDef} (nodup : t.columnNames.Nodup) :
    ((keptColumns t u ++ addedColumns t u).map (·.name)).Nodup := by
  rw [List.map_append, added_names]
  refine List.nodup_append.mpr ⟨(List.filter_sublist.map _).nodup nodup,
    (KeyedView.keys_nodup _ _).filter _, ?_⟩
  rintro a kept b added rfl
  obtain ⟨c, mem, rfl⟩ := List.mem_map.mp kept
  have absent := List.of_mem_filter added
  rw [Option.isNone_iff_eq_none, columnGet, KeyedView.get_eq_none_iff] at absent
  exact absent c (mem_kept.mp mem).1 rfl

theorem mem_kept_added {t u : TableDef} (nodup : u.columnNames.Nodup) {col : String} :
    col ∈ (keptColumns t u ++ addedColumns t u).map (·.name) ↔ col ∈ u.columnNames := by
  rw [List.map_append, List.mem_append, List.mem_map, List.mem_map]
  constructor
  · rintro (⟨c, mem, rfl⟩ | ⟨c, mem, rfl⟩)
    · exact (mem_kept.mp mem).2
    · obtain ⟨toDef, here, _, rfl⟩ := (mem_added nodup).mp mem
      exact List.mem_map.mpr ⟨toDef, here, rfl⟩
  · intro mem
    by_cases old : col ∈ t.columnNames
    · obtain ⟨c, here, rfl⟩ := List.mem_map.mp old
      exact .inl ⟨c, mem_kept.mpr ⟨here, mem⟩, rfl⟩
    · obtain ⟨toDef, here, rfl⟩ := List.mem_map.mp mem
      exact .inr ⟨toDef.stripInline, (mem_added nodup).mpr ⟨toDef, here, old, rfl⟩, rfl⟩

/-! What a dropped column leaves of a constraint -/

/-- A constraint that outlives the drop of `column` as it is. -/
def Outlives (column : String) (c : TableConstraint) : Prop :=
  dropColumnFromConstraint column c = some c

def isCheck : TableConstraint → Bool
  | .check _ _ _ => true
  | _ => false

theorem outlives_iff {column : String} {c : TableConstraint} :
    Outlives column c ↔ isCheck c = true ∨ (c.columns ≠ [] ∧ column ∉ c.columns) := by
  cases c
  case check name expr strategy => simp [Outlives, dropColumnFromConstraint, isCheck]
  all_goals
    simp only [Outlives, dropColumnFromConstraint, isCheck, TableConstraint.columns,
      Bool.false_eq_true, false_or]
    split
    · rename_i gone
      simp only [reduceCtorEq, false_iff, not_and, not_not]
      intro nonempty
      rw [List.filter_eq_nil_iff] at gone
      obtain ⟨col, mem⟩ := List.exists_mem_of_ne_nil _ nonempty
      exact (by simpa using gone col mem : col = column) ▸ mem
    · rename_i kept
      simp only [Option.some.injEq, TableConstraint.primaryKey.injEq, TableConstraint.unique.injEq,
        TableConstraint.foreignKey.injEq, TableConstraint.index.injEq, true_and, and_true,
        List.filter_eq_self, decide_eq_true_eq]
      constructor
      · intro apart
        refine ⟨?_, fun mem => apart column mem rfl⟩
        rintro rfl
        exact kept rfl
      · rintro ⟨_, absent⟩ col mem rfl
        exact absent mem

theorem drop_column_left {column : String} {c c' : TableConstraint}
    (left : dropColumnFromConstraint column c = some c') :
    isCheck c' = isCheck c ∧ c'.columns = c.columns.filter (· ≠ column) ∧
      (isCheck c' = true ∨ c'.columns ≠ []) := by
  cases c
  case check name expr strategy =>
    obtain rfl := Option.some.inj left
    exact ⟨rfl, rfl, .inl rfl⟩
  all_goals
    simp only [dropColumnFromConstraint] at left
    split at left
    · simp at left
    · rename_i kept
      obtain rfl := Option.some.inj left
      exact ⟨rfl, rfl, .inr kept⟩

theorem drop_column_outlives {column : String} {c c' : TableConstraint}
    (left : dropColumnFromConstraint column c = some c') : Outlives column c' := by
  obtain ⟨_, columns, nonempty⟩ := drop_column_left left
  rw [outlives_iff]
  refine nonempty.imp_right fun nonempty => ⟨nonempty, ?_⟩
  simp [columns]

/-- A later drop keeps a constraint clear of the columns dropped before. -/
theorem Outlives.drop {first second : String} {c c' : TableConstraint} (clear : Outlives first c)
    (left : dropColumnFromConstraint second c = some c') : Outlives first c' := by
  obtain ⟨check, columns, nonempty⟩ := drop_column_left left
  rw [outlives_iff] at clear ⊢
  rw [check] at nonempty ⊢
  rcases clear with is_check | ⟨_, absent⟩
  · exact .inl is_check
  · refine nonempty.imp_right fun nonempty => ⟨nonempty, ?_⟩
    rw [columns]
    exact fun mem => absent (List.mem_of_mem_filter mem)

theorem drop_columns_outlive {columns : List String} {constraints : List TableConstraint}
    {c : TableConstraint} (mem : c ∈ columns.foldl dropColumnFromConstraints constraints) :
    ∀ col ∈ columns, Outlives col c := by
  have kept : ∀ (columns : List String) (constraints : List TableConstraint) (col : String),
      (∀ d ∈ constraints, Outlives col d) →
        ∀ d ∈ columns.foldl dropColumnFromConstraints constraints, Outlives col d := by
    intro columns
    induction columns with
    | nil => exact fun _ _ all => all
    | cons column columns ih =>
      intro constraints col all
      refine ih _ col ?_
      intro d here
      obtain ⟨d', there, left⟩ := List.mem_filterMap.mp here
      exact (all d' there).drop left
  induction columns generalizing constraints with
  | nil => simp
  | cons column columns ih =>
    intro col here
    rcases List.mem_cons.mp here with rfl | later
    · refine kept columns _ col ?_ c mem
      intro d there
      obtain ⟨d', _, left⟩ := List.mem_filterMap.mp there
      exact drop_column_outlives left
    · exact ih mem col later

theorem count_drop_column (column : String) (constraints : List TableConstraint)
    {c : TableConstraint} (outlives : Outlives column c) :
    constraints.count c ≤ (dropColumnFromConstraints constraints column).count c := by
  induction constraints with
  | nil => simp [dropColumnFromConstraints]
  | cons d constraints ih =>
    by_cases same : d = c
    · subst same
      have kept : dropColumnFromConstraint column d = some d := outlives
      simp only [dropColumnFromConstraints, List.filterMap_cons, kept, List.count_cons_self] at ih ⊢
      omega
    · rw [List.count_cons_of_ne same]
      refine ih.trans ?_
      simp only [dropColumnFromConstraints, List.filterMap_cons]
      split
      · exact le_refl _
      · exact List.count_le_count_cons

theorem count_drop_columns {columns : List String} (constraints : List TableConstraint)
    {c : TableConstraint} (outlives : ∀ col ∈ columns, Outlives col c) :
    constraints.count c ≤ (columns.foldl dropColumnFromConstraints constraints).count c := by
  induction columns generalizing constraints with
  | nil => exact le_refl _
  | cons column columns ih =>
    exact (count_drop_column column constraints (outlives column List.mem_cons_self)).trans
      (ih _ fun col mem => outlives col (List.mem_cons_of_mem column mem))

/-! The carried constraints -/

theorem candidate_outlives {t u : TableDef} {x : TableConstraint}
    (mem : x ∈ candidates (keptColumns t u)) : ∀ col ∈ droppedColumns t u, Outlives col x := by
  intro col dropped
  obtain ⟨nonempty, within⟩ := candidate_columns mem
  rw [outlives_iff]
  refine .inr ⟨nonempty, fun here => ?_⟩
  obtain ⟨c, kept, rfl⟩ := List.mem_map.mp (within col here)
  exact (mem_dropped.mp dropped).2 (mem_kept.mp kept).2

theorem carried_outlives {t u : TableDef} {c : TableConstraint}
    (mem : c ∈ carriedConstraints t u) : ∀ col ∈ droppedColumns t u, Outlives col c := by
  simp only [carriedConstraints] at mem
  split at mem
  · exact drop_columns_outlive mem
  · rw [append_missing_eq, List.mem_append] at mem
    rcases mem with shrunk | promoted
    · exact drop_columns_outlive shrunk
    · exact candidate_outlives (missing_subset promoted)

theorem shrunk_count_le_carried (t u : TableDef) (c : TableConstraint) :
    (shrunkConstraints t u).count c ≤ (carriedConstraints t u).count c := by
  simp only [carriedConstraints]
  split
  · exact le_refl _
  · rw [append_missing_eq, List.count_append]
    exact Nat.le_add_right _ _

theorem promoted_count_le_carried {t u : TableDef} {c : TableConstraint}
    (mem : c ∈ carriedConstraints t u) :
    (promoted t).count c ≤ (carriedConstraints t u).count c := by
  rw [promoted, append_missing_eq, List.count_append]
  by_cases explicit : c ∈ t.constraints
  · have once : (missing covers (candidates t.columns) t.constraints).count c = 0 :=
      List.count_eq_zero.mpr fun here => missing_not_mem candidate_covers_itself here explicit
    have shrunk := count_drop_columns t.constraints (carried_outlives mem)
    have carried := shrunk_count_le_carried t u c
    simp only [shrunkConstraints] at carried
    omega
  · have none_explicit : t.constraints.count c = 0 := List.count_eq_zero.mpr explicit
    have nodup : (missing covers (candidates t.columns) t.constraints).Nodup :=
      missing_nodup candidate_covers_itself t.constraints
    have once := List.nodup_iff_count_le_one.mp nodup c
    have present := List.count_pos_iff.mpr mem
    omega

theorem carried_columns_stay {t u : TableDef} {c : TableConstraint}
    (mem : c ∈ carriedConstraints t u) : columnsGone (droppedColumns t u) c = false := by
  simp only [columnsGone, decide_eq_false_iff_not, not_and, not_forall]
  intro nonempty
  obtain ⟨col, here⟩ := List.exists_mem_of_ne_nil _ nonempty
  refine ⟨col, here, fun dropped => ?_⟩
  rcases outlives_iff.mp (carried_outlives mem col dropped) with check | ⟨_, absent⟩
  · cases c <;> simp [isCheck, TableConstraint.columns] at check here
  · exact absent here

end Vespertide
