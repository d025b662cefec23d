import Vespertide.TableReplay
import Mathlib.Data.List.ReduceOption

/-!
The attribute changes of the columns that stay. They may run in any order: no
two of them on one column set the same attribute, as an integer enum is never
both retyped and remapped.
-/
namespace Vespertide
open Components

def columnEdit : MigrationAction → Option (String × (ColumnDef → ColumnDef))
  | .modifyColumnType _ column newType _ _ _ => some (column, fun c => { c with type := newType })
  | .modifyColumnNullable _ column nullable _ _ => some (column, fun c => { c with nullable })
  | .modifyColumnDefault _ column newDefault _ =>
      some (column, fun c => { c with default := newDefault.map .string })
  | .modifyColumnComment _ column newComment =>
      some (column, fun c => { c with comment := newComment })
  | .remapEnumValues _ column mapping =>
      some (column, fun c => { c with type := remapType mapping c.type })
  | _ => none

def editColumn (a : MigrationAction) (c : ColumnDef) : ColumnDef :=
  match columnEdit a with
  | some (column, f) => if c.name = column then f c else c
  | none => c

def editAll (actions : List MigrationAction) (c : ColumnDef) : ColumnDef :=
  actions.foldl (fun c a => editColumn a c) c

@[simp] theorem edit_column_name (a : MigrationAction) (c : ColumnDef) :
    (editColumn a c).name = c.name := by
  cases a <;> simp only [editColumn, columnEdit] <;> split <;> rfl

theorem edit_column_declarations (a : MigrationAction) (c : ColumnDef) :
    (editColumn a c).declarations = c.declarations := by
  cases a <;> simp only [editColumn, columnEdit] <;> split <;> rfl

theorem edit_all_keeps {β : Type} (f : ColumnDef → β) (kept : ∀ a c, f (editColumn a c) = f c)
    (actions : List MigrationAction) (c : ColumnDef) : f (editAll actions c) = f c := by
  induction actions generalizing c with
  | nil => rfl
  | cons a actions ih => exact (ih _).trans (kept a c)

@[simp] theorem edit_all_name (actions : List MigrationAction) (c : ColumnDef) :
    (editAll actions c).name = c.name := edit_all_keeps (·.name) edit_column_name actions c

theorem edit_all_declarations (actions : List MigrationAction) (c : ColumnDef) :
    (editAll actions c).declarations = c.declarations :=
  edit_all_keeps ColumnDef.declarations edit_column_declarations actions c

theorem edit_all_append (first second : List MigrationAction) (c : ColumnDef) :
    editAll (first ++ second) c = editAll second (editAll first c) := List.foldl_append

/-! A run of attribute changes -/

theorem step_column_edit {a : MigrationAction} {column : String} {f : ColumnDef → ColumnDef}
    (edit : columnEdit a = some (column, f)) {t : TableDef} (nodup : t.columnNames.Nodup)
    (present : column ∈ t.columnNames) :
    editStep a t = some { t with columns := t.columns.map (editColumn a) } := by
  have mapped : t.columns.map (editColumn a) = mapFirstColumn column f t.columns := by
    rw [map_first_column nodup]
    exact List.map_congr_left fun c _ => by simp only [editColumn, edit]
  have done : tableEdit a t = .ok { t with columns := mapFirstColumn column f t.columns } := by
    cases a <;> simp only [columnEdit, Option.some.injEq, Prod.mk.injEq, reduceCtorEq] at edit <;>
    · obtain ⟨rfl, rfl⟩ := edit
      simp only [tableEdit, onColumn, present, ↓reduceIte]
  simp [editStep, done, mapped, Outcome.toOption, Outcome.ok]

theorem run_column_edits {actions : List MigrationAction} {t : TableDef}
    (nodup : t.columnNames.Nodup)
    (edits : ∀ a ∈ actions, ∃ column f, columnEdit a = some (column, f) ∧ column ∈ t.columnNames) :
    run editStep actions t = some { t with columns := t.columns.map (editAll actions) } := by
  induction actions generalizing t with
  | nil =>
    have unchanged : editAll [] = id := rfl
    simp [unchanged]
  | cons a actions ih =>
    obtain ⟨column, f, edit, present⟩ := edits a List.mem_cons_self
    rw [run_cons, step_column_edit edit nodup present]
    have names : (t.columns.map (editColumn a)).map (·.name) = t.columnNames := by
      rw [List.map_map]
      exact List.map_congr_left fun c _ => edit_column_name a c
    refine (ih (t := { t with columns := t.columns.map (editColumn a) }) ?_ ?_).trans ?_
    · exact (names ▸ nodup : ((t.columns.map (editColumn a)).map (·.name)).Nodup)
    · intro b mem
      obtain ⟨column', f', edit', present'⟩ := edits b (List.mem_cons_of_mem a mem)
      exact ⟨column', f', edit', by simpa only [TableDef.columnNames, names] using present'⟩
    · simp only [List.map_map]
      rfl

/-! The changes of one column -/

variable (tableName : String)

def columnEditsOf (fromDef toDef : ColumnDef) : List MigrationAction :=
  [columnTypeChange tableName toDef.name fromDef toDef,
    integerEnumRemapping tableName toDef.name fromDef toDef,
    columnNullabilityChange tableName toDef.name fromDef toDef,
    columnDefaultChange tableName toDef.name fromDef toDef,
    columnCommentChange tableName toDef.name fromDef toDef].reduceOption

/-- An integer enum that is remapped has not been retyped. -/
theorem remapped_not_retyped {fromType toType : ColumnType}
    (remapped : computeIntegerEnumRemapping fromType toType ≠ []) :
    fromType.requiresMigration toType = false ∧ needsEnumRename fromType toType = false := by
  simp only [computeIntegerEnumRemapping] at remapped
  split at remapped
  · simp [ColumnType.requiresMigration, needsEnumRename, EnumValues.isInteger]
  · exact absurd rfl remapped

variable {tableName}

theorem column_edit_cases {fromDef toDef : ColumnDef} {a : MigrationAction}
    (mem : a ∈ columnEditsOf tableName fromDef toDef) :
    (a = .modifyColumnType tableName toDef.name toDef.type none none none ∧
      computeIntegerEnumRemapping fromDef.type toDef.type = []) ∨
    (a = .remapEnumValues tableName toDef.name
        (computeIntegerEnumRemapping fromDef.type toDef.type) ∧
      computeIntegerEnumRemapping fromDef.type toDef.type ≠ []) ∨
    a = .modifyColumnNullable tableName toDef.name toDef.nullable none none ∨
    a = .modifyColumnDefault tableName toDef.name (toDef.default.map (·.toSql)) none ∨
    a = .modifyColumnComment tableName toDef.name toDef.comment := by
  simp only [columnEditsOf, List.reduceOption_mem_iff, List.mem_cons, List.not_mem_nil,
    or_false] at mem
  rcases mem with retyped | remapped | nullable | default | comment
  · refine .inl ?_
    simp only [columnTypeChange] at retyped
    split at retyped
    · rename_i needed
      obtain rfl := Option.some.inj retyped
      refine ⟨rfl, ?_⟩
      by_contra remapped
      obtain ⟨kept, unnamed⟩ := remapped_not_retyped remapped
      simp [kept, unnamed] at needed
    · simp at retyped
  · refine .inr (.inl ?_)
    simp only [integerEnumRemapping] at remapped
    split at remapped
    · simp at remapped
    · rename_i nonempty
      exact ⟨Option.some.inj remapped, nonempty⟩
  · refine .inr (.inr (.inl ?_))
    simp only [columnNullabilityChange] at nullable
    split at nullable
    · exact Option.some.inj nullable
    · simp at nullable
  · refine .inr (.inr (.inr (.inl ?_)))
    simp only [columnDefaultChange] at default
    split at default
    · simp at default
    · split at default
      · exact Option.some.inj default
      · simp at default
  · refine .inr (.inr (.inr (.inr ?_)))
    simp only [columnCommentChange] at comment
    split at comment
    · exact Option.some.inj comment
    · simp at comment

theorem column_edit_of {fromDef toDef : ColumnDef} {a : MigrationAction}
    (mem : a ∈ columnEditsOf tableName fromDef toDef) :
    ∃ f, columnEdit a = some (toDef.name, f) := by
  rcases column_edit_cases mem with ⟨rfl, _⟩ | ⟨rfl, _⟩ | rfl | rfl | rfl <;> exact ⟨_, rfl⟩

theorem column_edits_commute {fromDef toDef : ColumnDef} {a b : MigrationAction}
    (first : a ∈ columnEditsOf tableName fromDef toDef)
    (second : b ∈ columnEditsOf tableName fromDef toDef) (c : ColumnDef) :
    editColumn a (editColumn b c) = editColumn b (editColumn a c) := by
  by_cases here : c.name = toDef.name
  · rcases column_edit_cases first with ⟨rfl, none_mapped⟩ | ⟨rfl, mapped⟩ | rfl | rfl | rfl <;>
      rcases column_edit_cases second with ⟨rfl, none_mapped'⟩ | ⟨rfl, mapped'⟩ | rfl | rfl | rfl <;>
      first
      | exact absurd none_mapped mapped'
      | exact absurd none_mapped' mapped
      | simp only [editColumn, columnEdit, here, ↓reduceIte]
  · have away : ∀ d ∈ columnEditsOf tableName fromDef toDef, editColumn d c = c := by
      intro d mem
      obtain ⟨f, edit⟩ := column_edit_of mem
      simp [editColumn, edit, here]
    rw [away a first, away b second, away a first]

/-! The changes of a table, column by column -/

def attributeEdits (tableName : String) (fromCols toCols : List ColumnDef) :
    List MigrationAction :=
  diffColumnTypes tableName fromCols toCols ++ diffIntegerEnumRemappings tableName fromCols toCols
    ++ diffColumnNullability tableName fromCols toCols
    ++ diffColumnDefaults tableName fromCols toCols
    ++ diffColumnComments tableName fromCols toCols

theorem mem_shared {fromCols toCols : List ColumnDef}
    {f : String → ColumnDef → ColumnDef → Option MigrationAction} {a : MigrationAction} :
    a ∈ sharedColumns fromCols toCols f ↔ ∃ fromDef toDef,
      columnGet fromCols toDef.name = some fromDef ∧ columnGet toCols toDef.name = some toDef ∧
        f toDef.name fromDef toDef = some a := by
  constructor
  · intro mem
    obtain ⟨col, _, found⟩ := List.mem_filterMap.mp mem
    split at found
    · rename_i toDef fromDef there here
      obtain rfl := (KeyedView.get_some there).2
      exact ⟨fromDef, toDef, here, there, found⟩
    · simp at found
  · rintro ⟨fromDef, toDef, here, there, found⟩
    refine List.mem_filterMap.mpr ⟨toDef.name, ?_, by simp only [here, there, found]⟩
    exact KeyedView.mem_keys.mpr ⟨toDef, (KeyedView.get_some there).1, rfl⟩

theorem mem_attribute_edits {fromCols toCols : List ColumnDef} {a : MigrationAction} :
    a ∈ attributeEdits tableName fromCols toCols ↔ ∃ fromDef toDef,
      columnGet fromCols toDef.name = some fromDef ∧ columnGet toCols toDef.name = some toDef ∧
        a ∈ columnEditsOf tableName fromDef toDef := by
  simp only [attributeEdits, diffColumnTypes, diffIntegerEnumRemappings, diffColumnNullability,
    diffColumnDefaults, diffColumnComments, List.mem_append, mem_shared, columnEditsOf,
    List.reduceOption_mem_iff, List.mem_cons, List.not_mem_nil, or_false, ← exists_or, ← and_or_left,
    or_assoc, eq_comm]

theorem attribute_edit_of {fromCols toCols : List ColumnDef} {a : MigrationAction}
    (mem : a ∈ attributeEdits tableName fromCols toCols) : ∃ fromDef toDef,
      columnGet fromCols toDef.name = some fromDef ∧ columnGet toCols toDef.name = some toDef ∧
        a ∈ columnEditsOf tableName fromDef toDef := mem_attribute_edits.mp mem

theorem attribute_edits_commute {fromCols toCols : List ColumnDef} {a b : MigrationAction}
    (first : a ∈ attributeEdits tableName fromCols toCols)
    (second : b ∈ attributeEdits tableName fromCols toCols) (c : ColumnDef) :
    editColumn a (editColumn b c) = editColumn b (editColumn a c) := by
  obtain ⟨fromA, toA, fromA_here, toA_here, of_a⟩ := attribute_edit_of first
  obtain ⟨fromB, toB, fromB_here, toB_here, of_b⟩ := attribute_edit_of second
  by_cases same : toA.name = toB.name
  · obtain rfl : toA = toB := Option.some.inj (toA_here.symm.trans (same ▸ toB_here))
    obtain rfl : fromA = fromB := Option.some.inj (fromA_here.symm.trans fromB_here)
    exact column_edits_commute of_a of_b c
  · obtain ⟨f, edit_a⟩ := column_edit_of of_a
    obtain ⟨g, edit_b⟩ := column_edit_of of_b
    by_cases here : c.name = toA.name
    · have apart : c.name ≠ toB.name := fun there => same (here.symm.trans there)
      have away : ∀ d : ColumnDef, d.name = c.name → editColumn b d = d := by
        intro d named
        simp [editColumn, edit_b, named, apart]
      rw [away c rfl, away (editColumn a c) (edit_column_name a c)]
    · have away : ∀ d : ColumnDef, d.name = c.name → editColumn a d = d := by
        intro d named
        simp [editColumn, edit_a, named, here]
      rw [away c rfl, away (editColumn b c) (edit_column_name b c)]

theorem edit_all_perm {fromCols toCols : List ColumnDef} {actions : List MigrationAction}
    (perm : actions.Perm (attributeEdits tableName fromCols toCols)) (c : ColumnDef) :
    editAll actions c = editAll (attributeEdits tableName fromCols toCols) c :=
  perm.foldl_eq' (fun _ mem _ mem' c => attribute_edits_commute
    (perm.mem_iff.mp mem') (perm.mem_iff.mp mem) c) c

def editOption (edit : Option MigrationAction) (c : ColumnDef) : ColumnDef :=
  match edit with
  | some a => editColumn a c
  | none => c

theorem edit_option_name (edit : Option MigrationAction) (c : ColumnDef) :
    (editOption edit c).name = c.name := by
  cases edit with
  | none => rfl
  | some a => exact edit_column_name a c

theorem edit_all_option (edit : Option MigrationAction) (edits : List (Option MigrationAction))
    (c : ColumnDef) :
    editAll (edit :: edits).reduceOption c = editAll edits.reduceOption (editOption edit c) := by
  cases edit <;> rfl

theorem edit_all_keyed {g : String → Option MigrationAction}
    (own : ∀ k a, g k = some a → ∃ f, columnEdit a = some (k, f)) {ks : List String}
    (nodup : ks.Nodup) (c : ColumnDef) :
    editAll (ks.filterMap g) c = if c.name ∈ ks then editOption (g c.name) c else c := by
  induction ks generalizing c with
  | nil => rfl
  | cons k ks ih =>
    obtain ⟨fresh, rest⟩ := List.nodup_cons.mp nodup
    have head : editAll ((k :: ks).filterMap g) c = editAll (ks.filterMap g) (editOption (g k) c) := by
      cases found : g k <;> simp [found, editAll, editOption]
    rw [head, ih rest, edit_option_name]
    by_cases here : c.name = k
    · subst here
      simp [fresh]
    · have away : editOption (g k) c = c := by
        cases found : g k with
        | none => rfl
        | some a =>
          obtain ⟨f, edit⟩ := own k a found
          simp [editOption, editColumn, edit, here]
      simp [away, here]

theorem edit_all_shared {fromCols toCols : List ColumnDef}
    {f : String → ColumnDef → ColumnDef → Option MigrationAction}
    (own : ∀ fromDef toDef a, f toDef.name fromDef toDef = some a →
      ∃ g, columnEdit a = some (toDef.name, g)) {fromDef toDef c : ColumnDef}
    (named : c.name = toDef.name) (here : columnGet fromCols toDef.name = some fromDef)
    (there : columnGet toCols toDef.name = some toDef) :
    editAll (sharedColumns fromCols toCols f) c = editOption (f toDef.name fromDef toDef) c := by
  have present : c.name ∈ columnKeys toCols := by
    rw [named]
    exact KeyedView.mem_keys.mpr ⟨toDef, (KeyedView.get_some there).1, rfl⟩
  rw [sharedColumns, edit_all_keyed ?_ (KeyedView.keys_nodup _ _), if_pos present]
  · simp only [named, here, there]
  · intro k a found
    split at found
    · rename_i to_ from_ there' _
      obtain rfl := (KeyedView.get_some there').2
      exact own from_ to_ a found
    · simp at found

theorem edit_all_attributes {fromCols toCols : List ColumnDef} {fromDef toDef c : ColumnDef}
    (named : c.name = toDef.name) (here : columnGet fromCols toDef.name = some fromDef)
    (there : columnGet toCols toDef.name = some toDef) :
    editAll (attributeEdits tableName fromCols toCols) c =
      editAll (columnEditsOf tableName fromDef toDef) c := by
  have part : ∀ f : String → ColumnDef → ColumnDef → Option MigrationAction,
      (∀ (from_ to_ : ColumnDef) a, f to_.name from_ to_ = some a →
        some a ∈ [columnTypeChange tableName to_.name from_ to_,
          integerEnumRemapping tableName to_.name from_ to_,
          columnNullabilityChange tableName to_.name from_ to_,
          columnDefaultChange tableName to_.name from_ to_,
          columnCommentChange tableName to_.name from_ to_]) →
      ∀ d : ColumnDef, d.name = toDef.name →
        editAll (sharedColumns fromCols toCols f) d = editOption (f toDef.name fromDef toDef) d := by
    intro f listed d same
    refine edit_all_shared (fun from_ to_ a found => ?_) same here there
    exact column_edit_of (List.reduceOption_mem_iff.mpr (listed from_ to_ a found))
  simp only [attributeEdits, edit_all_append, diffColumnTypes, diffIntegerEnumRemappings,
    diffColumnNullability, diffColumnDefaults, diffColumnComments]
  simp only [columnEditsOf, edit_all_option]
  rw [part (columnTypeChange tableName) (fun _ _ _ found => by simp [found]) c named,
    part (integerEnumRemapping tableName) (fun _ _ _ found => by simp [found]) _
      (by simpa only [edit_option_name]),
    part (columnNullabilityChange tableName) (fun _ _ _ found => by simp [found]) _
      (by simpa only [edit_option_name]),
    part (columnDefaultChange tableName) (fun _ _ _ found => by simp [found]) _
      (by simpa only [edit_option_name]),
    part (columnCommentChange tableName) (fun _ _ _ found => by simp [found]) _
      (by simpa only [edit_option_name])]
  rfl

/-! The column that is left -/

/-- The default is the same, as a value or as its text. -/
def keepsDefault (fromDef toDef : ColumnDef) : Bool :=
  sameDefault fromDef.default toDef.default ∨
    fromDef.default.map (·.toSql) = toDef.default.map (·.toSql)

def editedColumn (fromDef toDef : ColumnDef) : ColumnDef :=
  { fromDef with
    type := if fromDef.type.requiresMigration toDef.type ∨ needsEnumRename fromDef.type toDef.type
      then toDef.type
      else remapType (computeIntegerEnumRemapping fromDef.type toDef.type) fromDef.type
    nullable := toDef.nullable
    default := if keepsDefault fromDef toDef then fromDef.default
      else toDef.default.map fun d => .string d.toSql
    comment := toDef.comment }

theorem remap_type_nil (ty : ColumnType) : remapType [] ty = ty := by
  have items_same : ∀ items : List NumValue, remapItems [] items = items := by
    intro items
    simp [remapItems]
  unfold remapType
  split
  · rw [items_same]
  · rfl

section Edited
variable {fromDef toDef c : ColumnDef} (named : c.name = toDef.name)
include named

theorem edit_type_change : editOption (columnTypeChange tableName toDef.name fromDef toDef) c =
    { c with type := if fromDef.type.requiresMigration toDef.type ∨
        needsEnumRename fromDef.type toDef.type then toDef.type else c.type } := by
  by_cases retyped : fromDef.type.requiresMigration toDef.type = true ∨
      needsEnumRename fromDef.type toDef.type = true
  · have needed : (fromDef.type.requiresMigration toDef.type ||
        (!fromDef.type.requiresMigration toDef.type &&
          needsEnumRename fromDef.type toDef.type)) = true := by
      rcases retyped with yes | yes <;> cases h : fromDef.type.requiresMigration toDef.type <;>
        simp_all
    simp only [columnTypeChange, needed, ↓reduceIte, editOption, editColumn, columnEdit, named,
      retyped]
  · obtain ⟨kept, unnamed⟩ := not_or.mp retyped
    simp only [Bool.not_eq_true] at kept unnamed
    simp [columnTypeChange, editOption, kept, unnamed]

theorem edit_remapping : editOption (integerEnumRemapping tableName toDef.name fromDef toDef) c =
    { c with type := remapType (computeIntegerEnumRemapping fromDef.type toDef.type) c.type } := by
  simp only [integerEnumRemapping]
  split
  · rename_i nothing
    rw [nothing, remap_type_nil]
    rfl
  · simp only [editOption, editColumn, columnEdit, named, ↓reduceIte]

theorem edit_nullability :
    editOption (columnNullabilityChange tableName toDef.name fromDef toDef) c =
      { c with nullable :=
          if fromDef.nullable ≠ toDef.nullable then toDef.nullable else c.nullable } := by
  by_cases changed : fromDef.nullable ≠ toDef.nullable
  · simp only [columnNullabilityChange, if_pos changed, editOption, editColumn, columnEdit, named,
      ↓reduceIte]
  · simp only [columnNullabilityChange, if_neg changed, editOption]

theorem edit_default : editOption (columnDefaultChange tableName toDef.name fromDef toDef) c =
    { c with default := if keepsDefault fromDef toDef then c.default
        else toDef.default.map fun d => .string d.toSql } := by
  simp only [columnDefaultChange, keepsDefault]
  split
  · rename_i same
    simp [same, editOption]
  · rename_i other
    split
    · rename_i text
      simp only [editOption, editColumn, columnEdit, named, ↓reduceIte, other, text,
        Bool.false_eq_true, or_self, decide_false, Option.map_map]
      rfl
    · rename_i text
      simp only [ne_eq, not_not] at text
      simp [editOption, text]

theorem edit_comment : editOption (columnCommentChange tableName toDef.name fromDef toDef) c =
    { c with comment := if fromDef.comment ≠ toDef.comment then toDef.comment else c.comment } := by
  by_cases changed : fromDef.comment ≠ toDef.comment
  · simp only [columnCommentChange, if_pos changed, editOption, editColumn, columnEdit, named,
      ↓reduceIte]
  · simp only [columnCommentChange, if_neg changed, editOption]

end Edited

theorem edit_column_edits {fromDef toDef : ColumnDef} (named : fromDef.name = toDef.name) :
    editAll (columnEditsOf tableName fromDef toDef) fromDef = editedColumn fromDef toDef := by
  simp only [columnEditsOf, edit_all_option]
  have nullable : (if fromDef.nullable ≠ toDef.nullable then toDef.nullable
      else fromDef.nullable) = toDef.nullable := by
    split
    · rfl
    · simp_all
  have comment : (if fromDef.comment ≠ toDef.comment then toDef.comment
      else fromDef.comment) = toDef.comment := by
    split
    · rfl
    · simp_all
  have retyped_kept : remapType (computeIntegerEnumRemapping fromDef.type toDef.type)
      (if fromDef.type.requiresMigration toDef.type ∨ needsEnumRename fromDef.type toDef.type
        then toDef.type else fromDef.type) = (editedColumn fromDef toDef).type := by
    simp only [editedColumn]
    split
    · rename_i retyped
      by_cases nothing : computeIntegerEnumRemapping fromDef.type toDef.type = []
      · rw [nothing, remap_type_nil]
      · obtain ⟨kept, unnamed⟩ := remapped_not_retyped nothing
        simp [kept, unnamed] at retyped
    · rfl
  rw [edit_type_change named, edit_remapping, edit_nullability, edit_default, edit_comment]
  · simp only [nullable, comment, retyped_kept]
    rfl
  · exact named
  · exact named
  · exact named
  · exact named

/-! A second comparison -/

theorem to_sql_ne_empty (d : DefaultValue) : d.toSql ≠ "" := by
  cases d with
  | bool b => cases b <;> decide
  | integer n =>
    cases n with
    | ofNat m => exact Nat.repr_ne_empty
    | negSucc m =>
      intro empty
      have text : "-" ++ m.succ.repr = "" := empty
      simp at text
  | float f => exact f.rendered
  | string s =>
    simp only [DefaultValue.toSql]
    split
    · decide
    · assumption

theorem to_sql_string (d : DefaultValue) : (DefaultValue.string d.toSql).toSql = d.toSql := by
  simp [DefaultValue.toSql.eq_4, to_sql_ne_empty d]

/-- The values an integer enum has after its remapping are those of the target:
    variants that shared a value agree on the new one. -/
def EnumConverges : ColumnType → ColumnType → Prop
  | .complex (.enum fromName (.integer fromItems)), .complex (.enum toName (.integer toItems)) =>
      remapItems (computeIntegerEnumRemapping (.complex (.enum fromName (.integer fromItems)))
        (.complex (.enum toName (.integer toItems)))) fromItems = toItems ∨
      ∀ i ∈ fromItems, ∀ j ∈ fromItems, i.value = j.value →
        ∀ v, valueByName toItems i.name = some v → ∀ w, valueByName toItems j.name = some w → v = w
  | _, _ => True

section Remapping
variable {fromName toName : String} {fromItems toItems : List NumValue}

def changedValues (fromItems toItems : List NumValue) : List (Int × Int) :=
  fromItems.filterMap fun fromItem =>
    match valueByName toItems fromItem.name with
    | some newVal => if newVal ≠ fromItem.value then some (fromItem.value, newVal) else none
    | none => none

theorem mem_changed_values {p : Int × Int} : p ∈ changedValues fromItems toItems ↔
    ∃ i ∈ fromItems, i.value = p.1 ∧ valueByName toItems i.name = some p.2 ∧ p.2 ≠ p.1 := by
  simp only [changedValues, List.mem_filterMap]
  refine exists_congr fun i => and_congr_right fun _ => ?_
  cases valueByName toItems i.name with
  | none => simp
  | some v =>
    obtain ⟨a, b⟩ := p
    simp only [Option.ite_none_right_eq_some, Option.some.injEq, Prod.mk.injEq]
    constructor
    · rintro ⟨changed, rfl, rfl⟩
      exact ⟨rfl, rfl, changed⟩
    · rintro ⟨rfl, rfl, changed⟩
      exact ⟨changed, rfl, rfl⟩

theorem mapping_eq (different : fromItems ≠ toItems) :
    computeIntegerEnumRemapping (.complex (.enum fromName (.integer fromItems)))
        (.complex (.enum toName (.integer toItems))) =
      collectMapping (changedValues fromItems toItems) := by
  simp only [computeIntegerEnumRemapping, different, ↓reduceIte]
  split
  · rename_i empty
    have nothing : changedValues fromItems toItems = [] := by
      rw [List.eq_nil_iff_forall_not_mem]
      intro p mem
      obtain ⟨i, here, _, found, _⟩ := mem_changed_values.mp mem
      rcases empty with rfl | rfl
      · simp at here
      · simp [valueByName, KeyedView.get] at found
    rw [nothing]
    rfl
  · rfl

theorem mapping_nil_iff :
    computeIntegerEnumRemapping (.complex (.enum fromName (.integer fromItems)))
        (.complex (.enum toName (.integer toItems))) = [] ↔
      fromItems = toItems ∨
        ∀ i ∈ fromItems, ∀ v, valueByName toItems i.name = some v → v = i.value := by
  by_cases same : fromItems = toItems
  · simp [computeIntegerEnumRemapping, same]
  · rw [mapping_eq same, collectMapping, KeyedView.entries_eq_nil_iff,
      List.eq_nil_iff_forall_not_mem]
    simp only [same, false_or]
    constructor
    · intro nothing i mem v found
      by_contra changed
      exact nothing (i.value, v) (mem_changed_values.mpr ⟨i, mem, rfl, found, changed⟩)
    · rintro all ⟨a, b⟩ mem
      obtain ⟨i, here, rfl, found, changed⟩ := mem_changed_values.mp mem
      exact changed (all i here b found)

def remapped (fromItems toItems : List NumValue) (value : Int) : Int :=
  ((collectMapping (changedValues fromItems toItems)).lookup value).getD value

theorem remapped_cases (fromItems toItems : List NumValue) (value : Int) :
    (value, remapped fromItems toItems value) ∈ changedValues fromItems toItems ∨
      (remapped fromItems toItems value = value ∧
        ∀ v, (value, v) ∉ changedValues fromItems toItems) := by
  simp only [remapped, collectMapping, KeyedView.lookup_entries]
  cases found : KeyedView.get Prod.fst (changedValues fromItems toItems) value with
  | none =>
    refine .inr ⟨rfl, fun v mem => ?_⟩
    exact KeyedView.get_eq_none_iff.mp found (value, v) mem rfl
  | some p =>
    obtain ⟨mem, rfl⟩ := KeyedView.get_some found
    exact .inl mem

/-- The remapped values are the target's exactly when shared values agree. -/
theorem remapped_iff :
    (∀ i ∈ fromItems, ∀ v, valueByName toItems i.name = some v →
      v = remapped fromItems toItems i.value) ↔
    ∀ i ∈ fromItems, ∀ j ∈ fromItems, i.value = j.value →
      ∀ v, valueByName toItems i.name = some v → ∀ w, valueByName toItems j.name = some w →
        v = w := by
  constructor
  · intro all i hi j hj same v found w found'
    rw [all i hi v found, all j hj w found', same]
  · intro agree i hi v found
    rcases remapped_cases fromItems toItems i.value with mem | ⟨kept, none⟩
    · obtain ⟨j, hj, same, found', _⟩ := mem_changed_values.mp mem
      exact agree i hi j hj same.symm v found _ found'
    · rw [kept]
      by_contra changed
      exact none v (mem_changed_values.mpr ⟨i, hi, rfl, found, changed⟩)

theorem remap_items_eq (different : fromItems ≠ toItems) :
    remapItems (computeIntegerEnumRemapping (.complex (.enum fromName (.integer fromItems)))
        (.complex (.enum toName (.integer toItems)))) fromItems =
      fromItems.map fun i => { i with value := remapped fromItems toItems i.value } := by
  rw [mapping_eq different]
  rfl

theorem remapping_settles_iff :
    computeIntegerEnumRemapping (remapType
        (computeIntegerEnumRemapping (.complex (.enum fromName (.integer fromItems)))
          (.complex (.enum toName (.integer toItems))))
        (.complex (.enum fromName (.integer fromItems))))
      (.complex (.enum toName (.integer toItems))) = [] ↔
    EnumConverges (.complex (.enum fromName (.integer fromItems)))
      (.complex (.enum toName (.integer toItems))) := by
  simp only [remapType, EnumConverges, mapping_nil_iff]
  by_cases same : fromItems = toItems
  · have kept : remapItems (computeIntegerEnumRemapping
        (.complex (.enum fromName (.integer fromItems)))
        (.complex (.enum toName (.integer toItems)))) fromItems = toItems := by
      have nothing : computeIntegerEnumRemapping (.complex (.enum fromName (.integer fromItems)))
          (.complex (.enum toName (.integer toItems))) = [] := mapping_nil_iff.mpr (.inl same)
      rw [nothing, same]
      simp [remapItems]
    simp only [kept, true_or]
  · rw [← remapped_iff, remap_items_eq same]
    refine or_congr_right ?_
    simp

end Remapping

section Second
theorem not_retyped_self (ty : ColumnType) :
    ty.requiresMigration ty = false ∧ needsEnumRename ty ty = false := by
  unfold ColumnType.requiresMigration needsEnumRename
  split <;> simp

theorem remapping_self (ty : ColumnType) : computeIntegerEnumRemapping ty ty = [] := by
  unfold computeIntegerEnumRemapping
  split
  · exact if_pos rfl
  · rfl

theorem edited_type_settled (fromDef toDef : ColumnDef) :
    (editedColumn fromDef toDef).type.requiresMigration toDef.type = false ∧
      needsEnumRename (editedColumn fromDef toDef).type toDef.type = false := by
  simp only [editedColumn]
  split
  · exact not_retyped_self toDef.type
  · rename_i kept
    obtain ⟨same, unnamed⟩ := not_or.mp kept
    simp only [Bool.not_eq_true] at same unnamed
    by_cases nothing : computeIntegerEnumRemapping fromDef.type toDef.type = []
    · rw [nothing, remap_type_nil]
      exact ⟨same, unnamed⟩
    · generalize fromDef.type = fromType at *
      generalize toDef.type = toType at *
      unfold computeIntegerEnumRemapping at nothing ⊢
      split at nothing
      · simp [remapType, ColumnType.requiresMigration, needsEnumRename, EnumValues.isInteger]
      · exact absurd rfl nothing

theorem edited_remapping_iff (fromDef toDef : ColumnDef) :
    computeIntegerEnumRemapping (editedColumn fromDef toDef).type toDef.type = [] ↔
      EnumConverges fromDef.type toDef.type := by
  simp only [editedColumn]
  generalize fromDef.type = fromType
  generalize toDef.type = toType
  by_cases both : ∃ a b c d, fromType = .complex (.enum a (.integer b)) ∧
      toType = .complex (.enum c (.integer d))
  · obtain ⟨fromName, fromItems, toName, toItems, rfl, rfl⟩ := both
    have kept : ¬ ((ColumnType.complex (.enum fromName (.integer fromItems))).requiresMigration
        (.complex (.enum toName (.integer toItems))) = true ∨
        needsEnumRename (.complex (.enum fromName (.integer fromItems)))
          (.complex (.enum toName (.integer toItems))) = true) := by
      simp [ColumnType.requiresMigration, needsEnumRename, EnumValues.isInteger]
    rw [if_neg kept]
    exact remapping_settles_iff
  · have converges : EnumConverges fromType toType := by
      unfold EnumConverges
      split
      · exact absurd ⟨_, _, _, _, rfl, rfl⟩ both
      · trivial
    have nothing : computeIntegerEnumRemapping fromType toType = [] := by
      unfold computeIntegerEnumRemapping
      split
      · exact absurd ⟨_, _, _, _, rfl, rfl⟩ both
      · rfl
    simp only [converges, iff_true]
    split
    · exact remapping_self toType
    · rw [nothing, remap_type_nil, nothing]

theorem strip_inline_eq {a b : ColumnDef} (same : a.stripInline = b.stripInline) :
    a.name = b.name ∧ a.type = b.type ∧ a.nullable = b.nullable ∧ a.default = b.default ∧
      a.comment = b.comment := by
  simp only [ColumnDef.stripInline, ColumnDef.mk.injEq, and_true] at same
  exact same

theorem edited_default_kept (fromDef toDef : ColumnDef) :
    keepsDefault (editedColumn fromDef toDef) toDef = true := by
  by_cases kept : keepsDefault fromDef toDef = true
  · have same : (editedColumn fromDef toDef).default = fromDef.default := by
      simp [editedColumn, kept]
    simpa [keepsDefault, same] using kept
  · have text : (editedColumn fromDef toDef).default =
        toDef.default.map fun d => .string d.toSql := by
      simp [editedColumn, kept]
    simp only [keepsDefault, text, decide_eq_true_eq]
    refine .inr ?_
    cases toDef.default with
    | none => rfl
    | some d => exact congrArg some (to_sql_string d)

theorem default_change_none_iff (fromDef toDef : ColumnDef) (col : String) :
    columnDefaultChange tableName col fromDef toDef = none ↔ keepsDefault fromDef toDef = true := by
  simp only [columnDefaultChange, keepsDefault, decide_eq_true_eq]
  split
  · simp [*]
  · split <;> simp_all

theorem column_edits_nil_iff (fromDef toDef : ColumnDef) :
    columnEditsOf tableName fromDef toDef = [] ↔
      (fromDef.type.requiresMigration toDef.type = false ∧
        needsEnumRename fromDef.type toDef.type = false) ∧
      computeIntegerEnumRemapping fromDef.type toDef.type = [] ∧
      fromDef.nullable = toDef.nullable ∧ keepsDefault fromDef toDef = true ∧
      fromDef.comment = toDef.comment := by
  have parts : columnEditsOf tableName fromDef toDef = [] ↔
      columnTypeChange tableName toDef.name fromDef toDef = none ∧
      integerEnumRemapping tableName toDef.name fromDef toDef = none ∧
      columnNullabilityChange tableName toDef.name fromDef toDef = none ∧
      columnDefaultChange tableName toDef.name fromDef toDef = none ∧
      columnCommentChange tableName toDef.name fromDef toDef = none := by
    simp only [columnEditsOf, List.eq_nil_iff_forall_not_mem, List.reduceOption_mem_iff]
    simp [Option.eq_none_iff_forall_ne_some, forall_and, @eq_comm _ (some _)]
  rw [parts, default_change_none_iff]
  refine and_congr ?_ (and_congr ?_ (and_congr ?_ (and_congr Iff.rfl ?_)))
  · simp only [columnTypeChange]
    cases fromDef.type.requiresMigration toDef.type <;>
      cases needsEnumRename fromDef.type toDef.type <;> simp
  · simp [integerEnumRemapping]
  · simp [columnNullabilityChange]
  · simp [columnCommentChange]

theorem second_edits_nil_iff {fromDef toDef r : ColumnDef}
    (left : r.stripInline = (editedColumn fromDef toDef).stripInline) :
    columnEditsOf tableName r toDef = [] ↔ EnumConverges fromDef.type toDef.type := by
  obtain ⟨_, type, nullable, default, comment⟩ := strip_inline_eq left
  have kept : keepsDefault r toDef = true := by
    have same : keepsDefault r toDef = keepsDefault (editedColumn fromDef toDef) toDef := by
      simp only [keepsDefault, default]
    rw [same, edited_default_kept]
  have nullable' : r.nullable = toDef.nullable := nullable
  have comment' : r.comment = toDef.comment := comment
  rw [column_edits_nil_iff, type, edited_remapping_iff]
  simp [edited_type_settled, nullable', kept, comment']

theorem same_edits_nil {toDef r : ColumnDef} (left : r.stripInline = toDef.stripInline) :
    columnEditsOf tableName r toDef = [] := by
  obtain ⟨_, type, nullable, default, comment⟩ := strip_inline_eq left
  have kept : keepsDefault r toDef = true := by
    simp [keepsDefault, default]
  rw [column_edits_nil_iff, type]
  simp [not_retyped_self, remapping_self, nullable, kept, comment]

end Second

end Vespertide
