import Vespertide.Diff
import Vespertide.Promotion

/-!
Clearing the inline declarations of a constraint that goes. With distinct column
names every clearing is a map over the columns, which touches nothing but the
declarations; clearings commute, so only the set of constraints counts.
-/
namespace Vespertide

def clearColumn (table : String) (constraint : TableConstraint) (c : ColumnDef) : ColumnDef :=
  match constraint with
  | .unique none columns _ => if columns = [c.name] then { c with unique := none } else c
  | .unique (some name) _ _ => clearUniqueName name c
  | .primaryKey _ columns _ => if c.name ∈ columns then { c with primaryKey := none } else c
  | .foreignKey _ columns _ _ _ _ _ =>
      if c.name ∈ columns then { c with foreignKey := none } else c
  | .check _ _ _ => c
  | .index none columns => if columns = [c.name] then { c with index := none } else c
  | .index (some name) _ =>
      clearIndexName name
        (if name = buildIndexName table [c.name] none then { c with index := none } else c)

def clearAll (table : String) (constraints : List TableConstraint) (c : ColumnDef) : ColumnDef :=
  constraints.foldl (fun c constraint => clearColumn table constraint c) c

/-! The clearing of a column list is a map -/

theorem map_first_column {column : String} {f : ColumnDef → ColumnDef} {cols : List ColumnDef}
    (nodup : (cols.map (·.name)).Nodup) :
    mapFirstColumn column f cols = cols.map fun c => if c.name = column then f c else c := by
  induction cols with
  | nil => rfl
  | cons c cols ih =>
    obtain ⟨fresh, rest⟩ := List.nodup_cons.mp nodup
    by_cases here : c.name = column
    · have others : ∀ c' ∈ cols, (if c'.name = column then f c' else c') = c' := by
        intro c' mem
        have other : c'.name ≠ column := fun same =>
          fresh (List.mem_map.mpr ⟨c', mem, same.trans here.symm⟩)
        simp [other]
      simp [mapFirstColumn, here, List.map_congr_left others]
    · simp [mapFirstColumn, here, ih rest]

theorem clear_columns_field (clear : ColumnDef → ColumnDef)
    (named : ∀ c, (clear c).name = c.name) (once : ∀ c, clear (clear c) = clear c)
    (columns : List String) {cols : List ColumnDef} (nodup : (cols.map (·.name)).Nodup) :
    clearColumnsField clear columns cols =
      cols.map fun c => if c.name ∈ columns then clear c else c := by
  induction columns generalizing cols with
  | nil => simp [clearColumnsField]
  | cons column columns ih =>
    simp only [clearColumnsField, List.foldl_cons, map_first_column nodup] at ih ⊢
    have kept : (cols.map fun c => if c.name = column then clear c else c).map (·.name) =
        cols.map (·.name) := by
      rw [List.map_map]
      refine List.map_congr_left fun c _ => ?_
      simp only [Function.comp_apply]
      split <;> simp [named]
    rw [ih (kept ▸ nodup), List.map_map]
    refine List.map_congr_left fun c _ => ?_
    simp only [Function.comp_apply, List.mem_cons]
    by_cases here : c.name = column
    · simp only [here, ↓reduceIte, true_or, named]
      split <;> simp [once]
    · simp [here]

theorem build_index_name_inj {table a b : String}
    (same : buildIndexName table [a] none = buildIndexName table [b] none) : a = b := by
  simpa [buildIndexName, buildConstraintName, writeSortedColumns, String.append_right_inj] using same

theorem clear_auto_named {table name : String} {cols : List ColumnDef}
    (nodup : (cols.map (·.name)).Nodup) :
    clearAutoNamedIndex table (some name) cols = cols.map fun c =>
      if name = buildIndexName table [c.name] none then { c with index := none } else c := by
  induction cols with
  | nil => rfl
  | cons c cols ih =>
    obtain ⟨fresh, rest⟩ := List.nodup_cons.mp nodup
    by_cases here : name = buildIndexName table [c.name] none
    · have others : ∀ c' ∈ cols, (if name = buildIndexName table [c'.name] none then
          { c' with index := none } else c') = c' := by
        intro c' mem
        have other : name ≠ buildIndexName table [c'.name] none := fun same =>
          fresh (List.mem_map.mpr ⟨c', mem, build_index_name_inj (same.symm.trans here)⟩)
        simp [other]
      simp [clearAutoNamedIndex, ← here, List.map_congr_left others]
    · simp [clearAutoNamedIndex, here, ih rest]

theorem clear_auto_named_none (table : String) (cols : List ColumnDef) :
    clearAutoNamedIndex table none cols = cols := by
  induction cols with
  | nil => rfl
  | cons c cols ih => simp [clearAutoNamedIndex, ih]

theorem clear_single_column (clear : ColumnDef → ColumnDef) (columns : List String)
    {cols : List ColumnDef} (nodup : (cols.map (·.name)).Nodup) :
    (match columns with
      | [column] => mapFirstColumn column clear cols
      | _ => cols) = cols.map fun c => if columns = [c.name] then clear c else c := by
  split
  · simp only [map_first_column nodup, List.cons.injEq, and_true, eq_comm]
  · rename_i several
    refine (List.map_id' cols).symm.trans (List.map_congr_left fun c _ => ?_)
    rw [if_neg fun single => several c.name single]

theorem clear_inline_eq (table : String) (constraint : TableConstraint) {cols : List ColumnDef}
    (nodup : (cols.map (·.name)).Nodup) :
    clearInlineConstraintFields table constraint cols = cols.map (clearColumn table constraint) := by
  cases constraint with
  | primaryKey autoIncrement columns strategy =>
    exact clear_columns_field (fun c => { c with primaryKey := none }) (fun _ => rfl)
      (fun _ => rfl) columns nodup
  | unique name columns strategy =>
    cases name with
    | none => exact clear_single_column (fun c => { c with unique := none }) columns nodup
    | some name => rfl
  | foreignKey name columns refTable refColumns onDelete onUpdate strategy =>
    exact clear_columns_field (fun c => { c with foreignKey := none }) (fun _ => rfl)
      (fun _ => rfl) columns nodup
  | check name expr strategy => exact (List.map_id' cols).symm
  | index name columns =>
    cases name with
    | none =>
      simp only [clearInlineConstraintFields, clearIndexFields, clear_auto_named_none]
      exact clear_single_column (fun c => { c with index := none }) columns nodup
    | some name =>
      simp only [clearInlineConstraintFields, clearIndexFields, clear_auto_named nodup,
        List.map_map]
      rfl

/-! What a clearing touches -/

def withoutName (gone : String) : Option StrOrBoolOrArray → Option StrOrBoolOrArray
  | some (.str name) => if name = gone then none else some (.str name)
  | some (.array names) =>
      let kept := names.filter (· ≠ gone)
      if kept = [] then none else some (.array kept)
  | declared => declared

theorem clear_unique_name_eq (name : String) (c : ColumnDef) :
    clearUniqueName name c = { c with unique := withoutName name c.unique } := by
  obtain ⟨_, _, _, _, _, _, unique, _, _⟩ := c
  rcases unique with _ | _ | _ | _
  · rfl
  · simp only [clearUniqueName, withoutName]
    split <;> rfl
  · rfl
  · rfl

theorem clear_index_name_eq (name : String) (c : ColumnDef) :
    clearIndexName name c = { c with index := withoutName name c.index } := by
  obtain ⟨_, _, _, _, _, _, _, index, _⟩ := c
  rcases index with _ | _ | names | _
  · rfl
  · simp only [clearIndexName, withoutName]
    split <;> rfl
  · simp only [clearIndexName, withoutName]
    split
    · rfl
    · split
      · rfl
      · rename_i whole
        have same := List.length_filter_le (· ≠ name) names
        rw [List.filter_sublist.eq_of_length (by omega)]
  · rfl

theorem without_name_twice (a b : String) (names : List String) :
    withoutName a (withoutName b (some (.array names))) =
      (let kept := (names.filter (· ≠ b)).filter (· ≠ a)
       if kept = [] then none else some (.array kept)) := by
  by_cases empty : names.filter (· ≠ b) = []
  · simp only [withoutName, empty, ↓reduceIte, List.filter_nil]
  · simp only [withoutName, empty, ↓reduceIte]

theorem without_name_comm (a b : String) (declared : Option StrOrBoolOrArray) :
    withoutName a (withoutName b declared) = withoutName b (withoutName a declared) := by
  rcases declared with _ | name | names | _
  · rfl
  · simp only [withoutName]
    grind [withoutName]
  · rw [without_name_twice, without_name_twice, List.filter_comm]
  · rfl

@[simp] theorem without_name_none (a : String) : withoutName a none = none := rfl

theorem clear_column_eq (table : String) (constraint : TableConstraint) (c : ColumnDef) :
    clearColumn table constraint c = { c with
      primaryKey := match constraint with
        | .primaryKey _ columns _ => if c.name ∈ columns then none else c.primaryKey
        | _ => c.primaryKey
      unique := match constraint with
        | .unique none columns _ => if columns = [c.name] then none else c.unique
        | .unique (some name) _ _ => withoutName name c.unique
        | _ => c.unique
      index := match constraint with
        | .index none columns => if columns = [c.name] then none else c.index
        | .index (some name) _ =>
            if name = buildIndexName table [c.name] none then none else withoutName name c.index
        | _ => c.index
      foreignKey := match constraint with
        | .foreignKey _ columns _ _ _ _ _ => if c.name ∈ columns then none else c.foreignKey
        | _ => c.foreignKey } := by
  cases constraint with
  | primaryKey autoIncrement columns strategy => simp only [clearColumn]; split <;> rfl
  | unique name columns strategy =>
    cases name with
    | none => simp only [clearColumn]; split <;> rfl
    | some name => exact clear_unique_name_eq name c
  | foreignKey name columns refTable refColumns onDelete onUpdate strategy =>
    simp only [clearColumn]; split <;> rfl
  | check name expr strategy => rfl
  | index name columns =>
    cases name with
    | none => simp only [clearColumn]; split <;> rfl
    | some name => simp only [clearColumn, clear_index_name_eq]; split <;> rfl

@[simp] theorem clear_column_name (table : String) (constraint : TableConstraint) (c : ColumnDef) :
    (clearColumn table constraint c).name = c.name := by
  rw [clear_column_eq]

theorem clear_column_attributes (table : String) (constraint : TableConstraint) (c : ColumnDef) :
    (clearColumn table constraint c).stripInline = c.stripInline := by
  rw [clear_column_eq]
  rfl

theorem mapped_first_keeps {β : Type} (f : ColumnDef → β) {g : ColumnDef → ColumnDef}
    (kept : ∀ c, f (g c) = f c) (column : String) (cols : List ColumnDef) :
    (mapFirstColumn column g cols).map f = cols.map f := by
  induction cols with
  | nil => rfl
  | cons c rest ih =>
    unfold mapFirstColumn
    split
    · rw [List.map_cons, kept, List.map_cons]
    · rw [List.map_cons, ih, List.map_cons]

/-- Clearing touches the inline declarations only, whatever the names of the columns. -/
theorem cleared_attributes (table : String) (constraint : TableConstraint)
    (cols : List ColumnDef) :
    (clearInlineConstraintFields table constraint cols).map ColumnDef.stripInline =
      cols.map ColumnDef.stripInline := by
  have field : ∀ (g : ColumnDef → ColumnDef) (key : List String) (cols : List ColumnDef),
      (∀ c, (g c).stripInline = c.stripInline) →
      (clearColumnsField g key cols).map ColumnDef.stripInline =
        cols.map ColumnDef.stripInline := by
    intro g key cols kept
    unfold clearColumnsField
    induction key generalizing cols with
    | nil => rfl
    | cons column key ih => exact (ih _).trans (mapped_first_keeps _ kept column cols)
  have every : ∀ (g : ColumnDef → ColumnDef) (cols : List ColumnDef),
      (∀ c, (g c).stripInline = c.stripInline) →
      (cols.map g).map ColumnDef.stripInline = cols.map ColumnDef.stripInline := by
    intro g cols kept
    rw [List.map_map]
    exact List.map_congr_left fun c _ => kept c
  have auto : ∀ (name : Option String) (cols : List ColumnDef),
      (clearAutoNamedIndex table name cols).map ColumnDef.stripInline =
        cols.map ColumnDef.stripInline := by
    intro name cols
    induction cols with
    | nil => rfl
    | cons c rest ih =>
      unfold clearAutoNamedIndex
      split
      · rfl
      · rw [List.map_cons, ih, List.map_cons]
  cases constraint with
  | primaryKey autoIncrement columns strategy => exact field _ columns cols fun _ => rfl
  | foreignKey name columns refTable refColumns onDelete onUpdate strategy =>
    exact field _ columns cols fun _ => rfl
  | check name expr strategy => rfl
  | unique name columns strategy =>
    simp only [clearInlineConstraintFields, clearUniqueFields]
    split
    · split
      · exact mapped_first_keeps ColumnDef.stripInline (fun _ => by rfl) _ cols
      · rfl
    · apply every
      intro c
      rw [clear_unique_name_eq]
      rfl
  | index name columns =>
    simp only [clearInlineConstraintFields, clearIndexFields]
    split
    · split
      · exact (mapped_first_keeps ColumnDef.stripInline (fun _ => by rfl) _ _).trans (auto _ cols)
      · exact auto _ cols
    · refine (every _ _ ?_).trans (auto _ cols)
      intro c
      rw [clear_index_name_eq]
      rfl

theorem clear_column_declarations (table : String) (constraint : TableConstraint)
    (c : ColumnDef) :
    clearColumn table constraint c.declarations = (clearColumn table constraint c).declarations := by
  simp only [clear_column_eq, ColumnDef.declarations]

theorem clear_column_comm (table : String) (a b : TableConstraint) (c : ColumnDef) :
    clearColumn table a (clearColumn table b c) = clearColumn table b (clearColumn table a c) := by
  simp only [clear_column_eq, ColumnDef.mk.injEq, true_and]
  -- two constraints of different kinds leave the field of the other alone
  refine ⟨?_, ?_, ?_, ?_⟩
  · cases a <;> cases b <;> try rfl
    dsimp only
    split <;> split <;> rfl
  · cases a <;> cases b <;> try rfl
    rename_i first _ _ second _ _
    cases first <;> cases second <;> dsimp only
    · split <;> split <;> rfl
    · split <;> simp
    · split <;> simp
    · exact without_name_comm _ _ c.unique
  · cases a <;> cases b <;> try rfl
    rename_i first _ second _
    cases first <;> cases second <;> dsimp only
    · split <;> split <;> rfl
    · split <;> split <;> simp
    · split <;> split <;> simp
    · split <;> split <;> simp [without_name_comm]
  · cases a <;> cases b <;> try rfl
    dsimp only
    split <;> split <;> rfl

theorem clear_all_perm (table : String) {first second : List TableConstraint}
    (perm : first.Perm second) (c : ColumnDef) : clearAll table first c = clearAll table second c :=
  perm.foldl_eq' (fun a _ b _ c => clear_column_comm table b a c) c

theorem clear_all_keeps {β : Type} (f : ColumnDef → β) {table : String}
    (kept : ∀ constraint c, f (clearColumn table constraint c) = f c)
    (constraints : List TableConstraint) (c : ColumnDef) : f (clearAll table constraints c) = f c := by
  induction constraints generalizing c with
  | nil => rfl
  | cons constraint constraints ih => exact (ih _).trans (kept constraint c)

@[simp] theorem clear_all_name (table : String) (constraints : List TableConstraint)
    (c : ColumnDef) : (clearAll table constraints c).name = c.name :=
  clear_all_keeps (·.name) (clear_column_name table) constraints c

theorem clear_all_attributes (table : String) (constraints : List TableConstraint)
    (c : ColumnDef) : (clearAll table constraints c).stripInline = c.stripInline :=
  clear_all_keeps ColumnDef.stripInline (clear_column_attributes table) constraints c

theorem clear_all_declarations (table : String) (constraints : List TableConstraint)
    (c : ColumnDef) :
    clearAll table constraints c.declarations = (clearAll table constraints c).declarations := by
  induction constraints generalizing c with
  | nil => rfl
  | cons constraint constraints ih =>
    simp only [clearAll, List.foldl_cons] at ih ⊢
    rw [clear_column_declarations, ih]

theorem clear_column_plain {c : ColumnDef} (plain : c.Plain) (table : String)
    (constraint : TableConstraint) : (clearColumn table constraint c).Plain := by
  obtain ⟨key, unique, index, foreign⟩ := plain
  rw [clear_column_eq]
  refine ⟨?_, ?_, ?_, ?_⟩
  · simp only [key]; split <;> simp
  · simp only [unique]; split <;> simp
  · simp only [index]; split <;> simp
  · simp only [foreign]; split <;> simp

theorem clear_all_plain {c : ColumnDef} (plain : c.Plain) (table : String)
    (constraints : List TableConstraint) : (clearAll table constraints c).Plain := by
  induction constraints generalizing c with
  | nil => exact plain
  | cons constraint constraints ih => exact ih (clear_column_plain plain table constraint)

theorem without_name_groups {columnName gone : String} {declared : Option StrOrBoolOrArray}
    (nodup : (declaredGroups columnName declared).Nodup) :
    (declaredGroups columnName (withoutName gone declared)).Nodup := by
  rcases declared with _ | name | names | _
  · exact nodup
  · simp only [withoutName]
    split <;> simp [declaredGroups]
  · simp only [withoutName]
    split
    · simp [declaredGroups]
    · exact nodup.filter _
  · exact nodup

theorem clear_column_inline_ok {c : ColumnDef} (ok : InlineOk c) (table : String)
    (constraint : TableConstraint) : InlineOk (clearColumn table constraint c) := by
  obtain ⟨foreign, index⟩ := ok
  rw [clear_column_eq]
  refine ⟨?_, ?_⟩
  · intro fkSyntax declared
    refine foreign fkSyntax ?_
    simp only at declared
    split at declared
    · split at declared
      · simp at declared
      · exact declared
    · exact declared
  · simp only
    split
    · split
      · simp [declaredGroups]
      · exact index
    · split
      · simp [declaredGroups]
      · exact without_name_groups index
    · exact index

theorem clear_all_inline_ok {c : ColumnDef} (ok : InlineOk c) (table : String)
    (constraints : List TableConstraint) : InlineOk (clearAll table constraints c) := by
  induction constraints generalizing c with
  | nil => exact ok
  | cons constraint constraints ih => exact ih (clear_column_inline_ok ok table constraint)

end Vespertide
