import Mathlib.Data.List.Count
import Vespertide.Naming
import Vespertide.Promotion
import Vespertide.Support.Grouping

/-!
Index tags of a GORM struct. Every field carries the names of the indexes and of the
composite unique its column is in; `AutoMigrate` groups the fields by name, in the
order of the struct. The map of unique names keeps one name for each column.
-/
namespace Vespertide
open Grouping

/-- The settings `index:name` and `uniqueIndex:name` of a field. -/
inductive IndexTag where
  | index (name : String)
  | uniqueIndex (name : String)
  deriving DecidableEq, Repr

def pushIndexNames (table : String) (map : ColumnGroups) : TableConstraint → ColumnGroups
  | .index name columns =>
      columns.foldl (appendToGroup · · (buildIndexName table columns name)) map
  | _ => map

/-- The newest entry of a column is the one that is read. -/
def pushUniqueName (table : String) (map : List (String × String)) :
    TableConstraint → List (String × String)
  | .unique name columns _ =>
      if 1 < columns.length then
        columns.foldl (fun map col => (col, buildUniqueConstraintName table columns name) :: map)
          map
      else map
  | _ => map

def declaredIndex (table : String) : TableConstraint → Option (IndexTag × List String)
  | .index name columns => some (.index (buildIndexName table columns name), columns)
  | .unique name columns _ =>
      if 1 < columns.length then
        some (.uniqueIndex (buildUniqueConstraintName table columns name), columns)
      else none
  | _ => none

section
variable (t : TableDef)

def collectIndexNames : ColumnGroups := t.constraints.foldl (pushIndexNames t.name) []

def collectCompositeUniqueNames : List (String × String) :=
  t.constraints.foldl (pushUniqueName t.name) []

def columnIndexTags (column : String) : List IndexTag :=
  (((collectIndexNames t).lookup column).getD []).map .index ++
    ((collectCompositeUniqueNames t).lookup column).toList.map .uniqueIndex

/-- Tags and columns of the fields, in the order of the struct. -/
def taggedFields : List (IndexTag × String) :=
  t.columnNames.flatMap fun column => (columnIndexTags t column).map (·, column)

def declaredIndexes : List (IndexTag × List String) :=
  t.constraints.filterMap (declaredIndex t.name)

/-- Every index lists its columns in the order of the table, and no column is in two
    composite uniques. -/
structure StructOrdered : Prop where
  indexes : ∀ name columns, (.index name, columns) ∈ declaredIndexes t → columns ≠ [] ∧
    t.columnNames.flatMap (fun c => List.replicate (columns.count c) c) = columns
  uniques : ∀ name columns, (.uniqueIndex name, columns) ∈ declaredIndexes t →
    t.columnNames.filter (· ∈ columns) = columns
  apart : ∀ name columns other others, (.uniqueIndex name, columns) ∈ declaredIndexes t →
    (.uniqueIndex other, others) ∈ declaredIndexes t → name ≠ other → columns.Disjoint others

end

/-! What a field is tagged with -/

def indexNamesAt (column : String) : IndexTag × List String → List String
  | (.index name, columns) => List.replicate (columns.count column) name
  | (.uniqueIndex _, _) => []

def uniqueNameAt (column : String) : IndexTag × List String → Option String
  | (.index _, _) => none
  | (.uniqueIndex name, columns) => if column ∈ columns then some name else none

theorem append_columns (name column : String) (columns : List String) (map : ColumnGroups) :
    ((columns.foldl (appendToGroup · · name) map).lookup column).getD [] =
      (map.lookup column).getD [] ++ List.replicate (columns.count column) name := by
  induction columns generalizing map with
  | nil => simp
  | cons col columns ih =>
    rw [List.foldl_cons, ih, lookup_append_to_group]
    by_cases same : column = col
    · subst same
      simp [List.replicate_succ]
    · rw [if_neg same, List.count_cons_of_ne (Ne.symm same)]

theorem insert_columns (name column : String) (columns : List String)
    (map : List (String × String)) :
    (columns.foldl (fun map col => (col, name) :: map) map).lookup column =
      if column ∈ columns then some name else map.lookup column := by
  induction columns generalizing map with
  | nil => simp
  | cons col columns ih =>
    rw [List.foldl_cons, ih, List.lookup_cons]
    by_cases same : column = col
    · simp [same]
    · simp [same, beq_false_of_ne same]

theorem push_index_names (table column : String) (map : ColumnGroups) (c : TableConstraint) :
    ((pushIndexNames table map c).lookup column).getD [] =
      (map.lookup column).getD [] ++ (declaredIndex table c).toList.flatMap
        (indexNamesAt column) := by
  cases c with
  | index name columns => simp [pushIndexNames, declaredIndex, indexNamesAt, append_columns]
  | unique name columns strategy =>
    simp only [pushIndexNames, declaredIndex]
    split
    · simp [indexNamesAt]
    · simp
  | primaryKey _ _ _ => simp [pushIndexNames, declaredIndex]
  | foreignKey _ _ _ _ _ _ _ => simp [pushIndexNames, declaredIndex]
  | check _ _ _ => simp [pushIndexNames, declaredIndex]

theorem push_unique_name (table column : String) (map : List (String × String))
    (c : TableConstraint) : (pushUniqueName table map c).lookup column =
      ((declaredIndex table c).bind (uniqueNameAt column)).or (map.lookup column) := by
  cases c with
  | unique name columns strategy =>
    simp only [pushUniqueName, declaredIndex]
    split
    · rw [insert_columns, Option.bind_some, uniqueNameAt]
      split <;> rfl
    · rfl
  | index name columns => rfl
  | primaryKey _ _ _ => rfl
  | foreignKey _ _ _ _ _ _ _ => rfl
  | check _ _ _ => rfl

theorem index_names_at (t : TableDef) (column : String) :
    ((collectIndexNames t).lookup column).getD [] =
      (declaredIndexes t).flatMap (indexNamesAt column) := by
  have pushed : ∀ (cs : List TableConstraint) (map : ColumnGroups),
      ((cs.foldl (pushIndexNames t.name) map).lookup column).getD [] =
        (map.lookup column).getD [] ++
          (cs.filterMap (declaredIndex t.name)).flatMap (indexNamesAt column) := by
    intro cs
    induction cs with
    | nil => simp
    | cons c cs ih =>
      intro map
      rw [List.foldl_cons, ih, push_index_names, List.append_assoc, ← List.flatMap_append,
        List.filterMap_cons]
      cases declaredIndex t.name c <;> rfl
  exact pushed t.constraints []

theorem unique_name_at (t : TableDef) (column : String) :
    (collectCompositeUniqueNames t).lookup column =
      ((declaredIndexes t).filterMap (uniqueNameAt column)).getLast? := by
  have inserted : ∀ (cs : List TableConstraint) (map : List (String × String)),
      (cs.foldl (pushUniqueName t.name) map).lookup column =
        (((cs.filterMap (declaredIndex t.name)).filterMap (uniqueNameAt column)).getLast?).or
          (map.lookup column) := by
    intro cs
    induction cs with
    | nil => intro map; rfl
    | cons c cs ih =>
      intro map
      rw [List.foldl_cons, ih, push_unique_name, ← Option.or_assoc, List.filterMap_filterMap,
        List.filterMap_filterMap, List.filterMap_cons]
      cases (declaredIndex t.name c).bind (uniqueNameAt column) with
      | none => simp
      | some name => rw [List.getLast?_cons]; simp
  rw [collectCompositeUniqueNames, inserted, List.lookup_nil, Option.or_none, declaredIndexes]

theorem unique_name_declared {t : TableDef} {column name : String}
    (mem : name ∈ (declaredIndexes t).filterMap (uniqueNameAt column)) :
    ∃ columns, (.uniqueIndex name, columns) ∈ declaredIndexes t ∧ column ∈ columns := by
  obtain ⟨⟨tag, columns⟩, listed, here⟩ := List.mem_filterMap.mp mem
  cases tag with
  | index other => cases here
  | uniqueIndex other =>
    rw [uniqueNameAt] at here
    split at here
    · rename_i member
      obtain rfl := Option.some.inj here
      exact ⟨columns, listed, member⟩
    · cases here

theorem tag_declared {t : TableDef} {tag : IndexTag} {column : String}
    (mem : tag ∈ columnIndexTags t column) : tag ∈ (declaredIndexes t).map (·.1) := by
  rw [columnIndexTags, index_names_at, unique_name_at] at mem
  rcases List.mem_append.mp mem with indexed | unique
  · obtain ⟨name, named, rfl⟩ := List.mem_map.mp indexed
    obtain ⟨⟨tag, columns⟩, listed, here⟩ := List.mem_flatMap.mp named
    cases tag with
    | uniqueIndex other => cases here
    | index other =>
      obtain rfl := List.eq_of_mem_replicate here
      exact List.mem_map.mpr ⟨_, listed, rfl⟩
  · obtain ⟨name, named, rfl⟩ := List.mem_map.mp unique
    obtain ⟨columns, listed, _⟩ :=
      unique_name_declared (List.mem_of_getLast? (Option.mem_toList.mp named))
    exact List.mem_map.mpr ⟨_, listed, rfl⟩

theorem members_unique (t : TableDef) (name : String) :
    members (taggedFields t) (.uniqueIndex name) =
      t.columnNames.filter fun c => (collectCompositeUniqueNames t).lookup c = some name := by
  have counted : ∀ c, (columnIndexTags t c).count (.uniqueIndex name) =
      if (collectCompositeUniqueNames t).lookup c = some name then 1 else 0 := by
    intro c
    have others : ((((collectIndexNames t).lookup c).getD []).map IndexTag.index).count
        (.uniqueIndex name) = 0 := by simp [List.count_eq_zero]
    rw [columnIndexTags, List.count_append, others, Nat.zero_add]
    cases (collectCompositeUniqueNames t).lookup c with
    | none => rfl
    | some other => simp [List.count_singleton]
  rw [taggedFields, members_flatMap]
  simp only [counted]
  induction t.columnNames with
  | nil => rfl
  | cons c columns ih =>
    rw [List.flatMap_cons, List.filter_cons, ih]
    split <;> simp [*]

theorem composite_filled {t : TableDef} {name : String} {columns : List String}
    (mem : (.uniqueIndex name, columns) ∈ declaredIndexes t) : columns ≠ [] := by
  obtain ⟨c, _, declared⟩ := List.mem_filterMap.mp mem
  cases c with
  | unique key cols strategy =>
    rw [declaredIndex] at declared
    split at declared
    · rename_i composite
      obtain ⟨_, rfl⟩ := Prod.mk.inj (Option.some.inj declared)
      exact List.ne_nil_of_length_pos (by omega)
    · cases declared
  | index _ _ => cases declared
  | primaryKey _ _ _ => cases declared
  | foreignKey _ _ _ _ _ _ _ => cases declared
  | check _ _ _ => cases declared

section Members
variable {t : TableDef} (distinct : ((declaredIndexes t).map (·.1)).Nodup)
include distinct

theorem same_columns {tag : IndexTag} {columns others : List String}
    (mem : (tag, columns) ∈ declaredIndexes t) (other : (tag, others) ∈ declaredIndexes t) :
    columns = others :=
  (Prod.mk.inj (List.inj_on_of_nodup_map distinct mem other rfl)).2

theorem count_index_tag {name : String} {columns : List String}
    (mem : (.index name, columns) ∈ declaredIndexes t) (column : String) :
    (columnIndexTags t column).count (.index name) = columns.count column := by
  have absent : ∀ entries : List (IndexTag × List String),
      .index name ∉ entries.map (·.1) → (entries.flatMap (indexNamesAt column)).count name = 0 := by
    intro entries away
    rw [List.count_eq_zero, List.mem_flatMap]
    rintro ⟨⟨tag, others⟩, listed, here⟩
    cases tag with
    | uniqueIndex other => cases here
    | index other =>
      rw [indexNamesAt] at here
      obtain rfl := List.eq_of_mem_replicate here
      exact away (List.mem_map.mpr ⟨_, listed, rfl⟩)
  have tags : (columnIndexTags t column).count (.index name) =
      ((declaredIndexes t).flatMap (indexNamesAt column)).count name := by
    have others : (((collectCompositeUniqueNames t).lookup column).toList.map
        IndexTag.uniqueIndex).count (.index name) = 0 := by simp [List.count_eq_zero]
    rw [columnIndexTags, List.count_append, index_names_at, others, Nat.add_zero,
      List.count_map_of_injective _ _ fun _ _ same => IndexTag.index.inj same]
  rw [tags]
  obtain ⟨front, back, split⟩ := List.append_of_mem mem
  rw [split, List.map_append, List.map_cons] at distinct
  have apart := List.nodup_middle.mp distinct
  have away := (List.nodup_cons.mp apart).1
  rw [List.mem_append, not_or] at away
  rw [split, List.flatMap_append, List.flatMap_cons, List.count_append, List.count_append,
    absent front away.1, absent back away.2]
  simp [indexNamesAt]

theorem unique_name_iff {name : String} {columns : List String}
    (mem : (.uniqueIndex name, columns) ∈ declaredIndexes t)
    (apart : ∀ other others, (.uniqueIndex other, others) ∈ declaredIndexes t → name ≠ other →
      columns.Disjoint others) (column : String) :
    (collectCompositeUniqueNames t).lookup column = some name ↔ column ∈ columns := by
  rw [unique_name_at]
  constructor
  · intro found
    obtain ⟨columns', listed, member⟩ := unique_name_declared (List.mem_of_getLast? found)
    exact same_columns distinct mem listed ▸ member
  · intro member
    have some_name : (declaredIndexes t).filterMap (uniqueNameAt column) ≠ [] := by
      refine List.ne_nil_of_mem (a := name) (List.mem_filterMap.mpr ⟨_, mem, if_pos member⟩)
    obtain ⟨other, found⟩ := Option.ne_none_iff_exists'.mp
      (mt List.getLast?_eq_none_iff.mp some_name)
    obtain ⟨others, listed, also⟩ := unique_name_declared (List.mem_of_getLast? found)
    by_cases same : name = other
    · rw [found, same]
    · exact absurd also (apart other others listed same member)

theorem members_index {name : String} {columns : List String}
    (mem : (.index name, columns) ∈ declaredIndexes t) :
    members (taggedFields t) (.index name) =
      t.columnNames.flatMap fun c => List.replicate (columns.count c) c := by
  simp only [taggedFields, members_flatMap, count_index_tag distinct mem]

end Members

/-- Under distinct names the groups of fields are the declared indexes exactly where each of
    these lists its columns as the table does and no column is in two composite uniques. -/
theorem gorm_indexes_iff (t : TableDef) (distinct : ((declaredIndexes t).map (·.1)).Nodup) :
    (grouped (taggedFields t)).Perm (declaredIndexes t) ↔ StructOrdered t := by
  have known : ∀ pair ∈ taggedFields t, pair.1 ∈ (declaredIndexes t).map (·.1) := by
    intro pair mem
    obtain ⟨column, _, tagged⟩ := List.mem_flatMap.mp mem
    obtain ⟨tag, here, rfl⟩ := List.mem_map.mp tagged
    exact tag_declared here
  rw [grouped_perm_iff distinct known]
  constructor
  · intro groups
    have held : ∀ name columns, (.uniqueIndex name, columns) ∈ declaredIndexes t →
        t.columnNames.filter (fun c => (collectCompositeUniqueNames t).lookup c = some name) =
          columns :=
      fun name columns mem => (members_unique t name).symm.trans (groups _ mem).2
    refine ⟨fun name columns mem => ⟨(groups _ mem).1, ?_⟩, fun name columns mem => ?_, ?_⟩
    · exact (members_index distinct mem).symm.trans (groups _ mem).2
    · have own := held name columns mem
      rw [← own]
      refine List.filter_congr fun c listed => ?_
      simp [List.mem_filter, listed]
    · intro name columns other others mem also differ c member shared
      rw [← held name columns mem] at member
      rw [← held other others also] at shared
      have first := of_decide_eq_true (List.mem_filter.mp member).2
      have second := of_decide_eq_true (List.mem_filter.mp shared).2
      exact differ (Option.some.inj (first.symm.trans second))
  · rintro ⟨indexes, uniques, apart⟩ ⟨tag, columns⟩ mem
    cases tag with
    | index name =>
      obtain ⟨filled, ordered⟩ := indexes name columns mem
      exact ⟨filled, (members_index distinct mem).trans ordered⟩
    | uniqueIndex name =>
      have held := unique_name_iff distinct mem fun other others =>
        apart name columns other others mem
      refine ⟨composite_filled mem, (members_unique t name).trans ?_⟩
      simp only [held]
      exact uniques name columns mem

def sharedUniques : TableDef :=
  { name := "t", description := none
    columns := ["a", "b", "c"].map fun name => .new name (.simple .integer) false
    constraints := [.unique (some "ab") ["a", "b"] (.deleteDuplicates .first),
      .unique (some "bc") ["b", "c"] (.deleteDuplicates .first)] }

theorem shared_column_moved : ¬ StructOrdered sharedUniques := by
  have moved : ¬ (grouped (taggedFields sharedUniques)).Perm (declaredIndexes sharedUniques) := by
    decide
  exact mt (gorm_indexes_iff sharedUniques (by decide)).mpr moved

theorem composite_unique_cut : ¬ ∀ t : TableDef, ((declaredIndexes t).map (·.1)).Nodup →
    (∀ entry ∈ declaredIndexes t, ∀ c ∈ entry.2, c ∈ t.columnNames) →
      (grouped (taggedFields t)).Perm (declaredIndexes t) := by
  intro always
  have cut : (.uniqueIndex "uq_t__ab", ["a"]) ∈ grouped (taggedFields sharedUniques) := by decide
  have listed := (always sharedUniques (by decide) (by decide)).mem_iff.mp cut
  exact absurd listed (by decide)

end Vespertide
