import Vespertide.Naming
import Vespertide.SchemaValidation

/-!
The physical names of indexes, unique constraints and foreign keys over a whole
schema. Table and key are joined by two underscores, sorted columns by one, and
both may stand inside the parts, so different parts can give one name.
-/
namespace Vespertide

/-- The kind of name, the declared one and the columns. -/
def namedParts : TableConstraint → Option (String × Option String × List String)
  | .unique name columns _ => some ("uq_", name, columns)
  | .index name columns => some ("ix_", name, columns)
  | .foreignKey name columns _ _ _ _ _ => some ("fk_", name, columns)
  | _ => none

def keyText (name : Option String) (columns : List String) : String :=
  name.getD (writeSortedColumns columns)

def objectName (table : String) : TableConstraint → Option String
  | .unique name columns _ => some (buildUniqueConstraintName table columns name)
  | .index name columns => some (buildIndexName table columns name)
  | _ => none

def foreignKeyName (table : String) : TableConstraint → Option String
  | .foreignKey name columns _ _ _ _ _ => some (buildForeignKeyName table columns name)
  | _ => none

def objectNames (schema : List TableDef) : List String :=
  schema.flatMap fun t => t.constraints.filterMap (objectName t.name)

def foreignKeyNames (t : TableDef) : List String := t.constraints.filterMap (foreignKeyName t.name)

def DeclaredOnce (t : TableDef) : Prop :=
  ∀ c ∈ t.constraints, ∀ c' ∈ t.constraints, c ≠ c' → ∀ kind key columns columns',
    namedParts c = some (kind, some key, columns) → namedParts c' ≠ some (kind, some key, columns')

/-- A key that is written from columns differs from the other keys of its kind. -/
def KeysApart (t : TableDef) : Prop :=
  ∀ c ∈ t.constraints, ∀ c' ∈ t.constraints, c ≠ c' → ∀ kind name name' columns columns',
    namedParts c = some (kind, name, columns) → namedParts c' = some (kind, name', columns') →
      name = none ∨ name' = none → keyText name columns ≠ keyText name' columns'

/-- The name of the second table goes on where the first one ends, and so does its key
    before the second one. -/
def Continues (table key table' key' : String) : Prop :=
  (table' = table ++ "_" ∧ key = "_" ++ key') ∨
    ∃ between, table' = table ++ "__" ++ between ∧ key = between ++ "__" ++ key'

def TablesApart (schema : List TableDef) : Prop :=
  ∀ t ∈ schema, ∀ t' ∈ schema, ∀ c ∈ t.constraints, ∀ c' ∈ t'.constraints,
    ∀ kind ∈ ["uq_", "ix_"], ∀ name name' columns columns',
      namedParts c = some (kind, name, columns) → namedParts c' = some (kind, name', columns') →
        ¬ Continues t.name (keyText name columns) t'.name (keyText name' columns')

/-! One name -/

theorem constraint_name_eq (kind table : String) (columns : List String) (key : Option String) :
    buildConstraintName kind table columns key = kind ++ (table ++ "__" ++ keyText key columns) := by
  cases key <;> simp [buildConstraintName, keyText, String.append_assoc]

theorem object_name_iff {table physical : String} {c : TableConstraint} :
    objectName table c = some physical ↔ ∃ kind ∈ ["uq_", "ix_"], ∃ name columns,
      namedParts c = some (kind, name, columns) ∧
        physical = kind ++ (table ++ "__" ++ keyText name columns) := by
  cases c <;> simp [objectName, namedParts, buildUniqueConstraintName, buildIndexName,
    constraint_name_eq, eq_comm]

theorem foreign_key_name_iff {table physical : String} {c : TableConstraint} :
    foreignKeyName table c = some physical ↔ ∃ name columns,
      namedParts c = some ("fk_", name, columns) ∧
        physical = "fk_" ++ (table ++ "__" ++ keyText name columns) := by
  cases c <;> simp [foreignKeyName, namedParts, buildForeignKeyName, constraint_name_eq, eq_comm]

theorem joined_tail_iff {s b d : List Char} : '_' :: '_' :: b = s ++ '_' :: '_' :: d ↔
    (s = [] ∧ b = d) ∨ (s = ['_'] ∧ b = '_' :: d) ∨
      ∃ between, s = '_' :: '_' :: between ∧ b = between ++ '_' :: '_' :: d := by
  match s with
  | [] => simp
  | [c] => simp [eq_comm]
  | c :: c' :: between => simp [eq_comm, and_assoc]

theorem continues_iff {table key table' key' : String} :
    Continues table key table' key' ↔ ∃ s, table'.toList = table.toList ++ s ∧ s ≠ [] ∧
      '_' :: '_' :: key.toList = s ++ '_' :: '_' :: key'.toList := by
  simp only [joined_tail_iff, Continues, ← String.toList_inj, String.toList_append]
  constructor
  · rintro (⟨table_eq, key_eq⟩ | ⟨between, table_eq, key_eq⟩)
    · exact ⟨['_'], table_eq, List.cons_ne_nil _ _, .inr (.inl ⟨rfl, key_eq⟩)⟩
    · refine ⟨'_' :: '_' :: between.toList, by simpa using table_eq, List.cons_ne_nil _ _,
        .inr (.inr ⟨_, rfl, by simpa using key_eq⟩)⟩
  · rintro ⟨s, table_eq, present, ⟨rfl, -⟩ | ⟨rfl, key_eq⟩ | ⟨between, rfl, key_eq⟩⟩
    · exact absurd rfl present
    · exact .inl ⟨table_eq, key_eq⟩
    · exact .inr ⟨String.ofList between, by simpa using table_eq, by simpa using key_eq⟩

/-- Where two names meet, the parts are the same or one table goes on in the other's key. -/
theorem joined_eq_iff {table key table' key' : String} :
    table ++ "__" ++ key = table' ++ "__" ++ key' ↔ (table = table' ∧ key = key') ∨
      Continues table key table' key' ∨ Continues table' key' table key := by
  have lists : table ++ "__" ++ key = table' ++ "__" ++ key' ↔
      table.toList ++ '_' :: '_' :: key.toList = table'.toList ++ '_' :: '_' :: key'.toList := by
    rw [← String.toList_inj]
    simp
  rw [lists, List.append_eq_append_iff, continues_iff, continues_iff, ← String.toList_inj,
    ← String.toList_inj]
  constructor
  · rintro (⟨s, longer, tail⟩ | ⟨s, longer, tail⟩)
    · by_cases none_left : s = []
      · subst none_left
        exact .inl ⟨by simpa using longer.symm, by simpa using tail⟩
      · exact .inr (.inl ⟨s, longer, none_left, tail⟩)
    · by_cases none_left : s = []
      · subst none_left
        exact .inl ⟨by simpa using longer, by simpa using tail.symm⟩
      · exact .inr (.inr ⟨s, longer, none_left, tail⟩)
  · rintro (⟨table_eq, key_eq⟩ | ⟨s, longer, -, tail⟩ | ⟨s, longer, -, tail⟩)
    · exact .inl ⟨[], by simp [table_eq], by simp [key_eq]⟩
    · exact .inl ⟨s, longer, tail⟩
    · exact .inr ⟨s, longer, tail⟩

theorem not_continues_self (table key key' : String) : ¬ Continues table key table key' := by
  rw [continues_iff]
  rintro ⟨s, longer, present, -⟩
  exact present (List.self_eq_append_right.mp longer)

theorem kind_apart {kind kind' : String} (first : kind ∈ ["uq_", "ix_"])
    (second : kind' ∈ ["uq_", "ix_"]) {rest rest' : String} (same : kind ++ rest = kind' ++ rest') :
    kind = kind' ∧ rest = rest' := by
  rw [← String.toList_inj, String.toList_append, String.toList_append] at same
  simp only [List.mem_cons, List.not_mem_nil, or_false] at first second
  rcases first with rfl | rfl <;> rcases second with rfl | rfl <;> simp at same
  · exact ⟨rfl, String.toList_inj.mp same⟩
  · exact ⟨rfl, String.toList_inj.mp same⟩

/-! All names -/

theorem nodup_filter_map_iff {α β : Type} {f : α → Option β} {xs : List α} (nodup : xs.Nodup) :
    (xs.filterMap f).Nodup ↔
      ∀ x ∈ xs, ∀ y ∈ xs, x ≠ y → ∀ b, f x = some b → f y ≠ some b := by
  have pairwise : (xs.filterMap f).Nodup ↔
      xs.Pairwise fun x y => ∀ b, f x = some b → f y ≠ some b := by
    rw [List.Nodup, List.pairwise_filterMap]
    refine ⟨fun apart => apart.imp fun never b here there => never b here b there rfl,
      fun apart => apart.imp fun never b here b' there same => ?_⟩
    exact never b here (same ▸ there)
  have symm : Std.Symm fun x y => ∀ b, f x = some b → f y ≠ some b :=
    ⟨fun x y apart b here there => apart b there here⟩
  rw [pairwise]
  exact ⟨fun apart => apart.forall, nodup.pairwise_of_forall_ne⟩

section Table
variable {t : TableDef}

theorem table_names_iff (nodup : t.constraints.Nodup) (declared : DeclaredOnce t) :
    ((t.constraints.filterMap (objectName t.name)).Nodup ∧ (foreignKeyNames t).Nodup) ↔
      KeysApart t := by
  rw [foreignKeyNames, nodup_filter_map_iff nodup, nodup_filter_map_iff nodup]
  constructor
  · rintro ⟨objects, keys⟩ c mem c' mem' apart kind name name' columns columns' parts parts' -
      same
    by_cases fk : kind = "fk_"
    · subst fk
      refine keys c mem c' mem' apart _ (foreign_key_name_iff.mpr ⟨_, _, parts, rfl⟩) ?_
      exact foreign_key_name_iff.mpr ⟨_, _, parts', by rw [same]⟩
    · have kinds : kind ∈ ["uq_", "ix_"] := by
        cases c <;> simp only [namedParts, reduceCtorEq, Option.some.injEq, Prod.mk.injEq] at parts
        · exact parts.1 ▸ List.mem_cons_self
        · exact absurd parts.1.symm fk
        · exact parts.1 ▸ List.mem_cons_of_mem _ List.mem_cons_self
      refine objects c mem c' mem' apart _ (object_name_iff.mpr ⟨kind, kinds, _, _, parts, rfl⟩) ?_
      exact object_name_iff.mpr ⟨kind, kinds, _, _, parts', by rw [same]⟩
  · intro apart
    have separate : ∀ c ∈ t.constraints, ∀ c' ∈ t.constraints, c ≠ c' →
        ∀ kind name name' columns columns', namedParts c = some (kind, name, columns) →
          namedParts c' = some (kind, name', columns') →
            keyText name columns ≠ keyText name' columns' := by
      intro c mem c' mem' other kind name name' columns columns' parts parts'
      by_cases unnamed : name = none ∨ name' = none
      · exact apart c mem c' mem' other kind name name' columns columns' parts parts' unnamed
      · obtain ⟨key, rfl⟩ := Option.ne_none_iff_exists'.mp (not_or.mp unnamed).1
        obtain ⟨key', rfl⟩ := Option.ne_none_iff_exists'.mp (not_or.mp unnamed).2
        rintro (rfl : key = key')
        exact declared c mem c' mem' other kind key columns columns' parts parts'
    constructor
    · intro c mem c' mem' other physical first second
      obtain ⟨kind, kinds, name, columns, parts, rfl⟩ := object_name_iff.mp first
      obtain ⟨kind', kinds', name', columns', parts', same⟩ := object_name_iff.mp second
      obtain ⟨rfl, joined⟩ := kind_apart kinds kinds' same
      exact separate c mem c' mem' other kind name name' columns columns' parts parts'
        ((String.append_right_inj _).mp joined)
    · intro c mem c' mem' other physical first second
      obtain ⟨name, columns, parts, rfl⟩ := foreign_key_name_iff.mp first
      obtain ⟨name', columns', parts', same⟩ := foreign_key_name_iff.mp second
      have joined := (String.append_right_inj _).mp same
      exact separate c mem c' mem' other "fk_" name name' columns columns' parts parts'
        ((String.append_right_inj _).mp joined)

/-- Two tables of different names share no name unless one goes on in the other's keys. -/
theorem names_disjoint_iff {t' : TableDef} (other : t.name ≠ t'.name) :
    List.Disjoint (t.constraints.filterMap (objectName t.name))
        (t'.constraints.filterMap (objectName t'.name)) ↔
      ∀ c ∈ t.constraints, ∀ c' ∈ t'.constraints, ∀ kind ∈ ["uq_", "ix_"],
        ∀ name name' columns columns', namedParts c = some (kind, name, columns) →
          namedParts c' = some (kind, name', columns') →
            ¬ Continues t.name (keyText name columns) t'.name (keyText name' columns') ∧
            ¬ Continues t'.name (keyText name' columns') t.name (keyText name columns) := by
  constructor
  · intro disjoint c mem c' mem' kind kinds name name' columns columns' parts parts'
    refine not_or.mp fun meets => ?_
    refine disjoint (List.mem_filterMap.mpr ⟨c, mem,
      object_name_iff.mpr ⟨kind, kinds, name, columns, parts, rfl⟩⟩) (List.mem_filterMap.mpr
      ⟨c', mem', object_name_iff.mpr ⟨kind, kinds, name', columns', parts', ?_⟩⟩)
    rw [joined_eq_iff.mpr (.inr meets)]
  · intro apart physical here there
    obtain ⟨c, mem, first⟩ := List.mem_filterMap.mp here
    obtain ⟨c', mem', second⟩ := List.mem_filterMap.mp there
    obtain ⟨kind, kinds, name, columns, parts, rfl⟩ := object_name_iff.mp first
    obtain ⟨kind', kinds', name', columns', parts', same⟩ := object_name_iff.mp second
    obtain ⟨rfl, joined⟩ := kind_apart kinds kinds' same
    obtain ⟨forward, backward⟩ :=
      apart c mem c' mem' kind kinds name name' columns columns' parts parts'
    rcases joined_eq_iff.mp joined with ⟨table, -⟩ | meets | meets
    · exact other table
    · exact forward meets
    · exact backward meets

end Table

/-- The names of an accepted schema are distinct just where a key written from columns is no
    other key of its table and no table's name goes on in the keys of another. -/
theorem object_names_distinct_iff {displayFloat : String → String} {schema : List TableDef}
    (valid : validateSchema displayFloat schema = .ok ())
    (different : ∀ t ∈ schema, t.constraints.Nodup) (declared : ∀ t ∈ schema, DeclaredOnce t) :
    ((objectNames schema).Nodup ∧ ∀ t ∈ schema, (foreignKeyNames t).Nodup) ↔
      (∀ t ∈ schema, KeysApart t) ∧ TablesApart schema := by
  have names := ((validate_schema_iff displayFloat schema).mp valid).1
  have apart : ∀ t ∈ schema, ∀ t' ∈ schema, t ≠ t' → t.name ≠ t'.name :=
    fun t mem t' mem' other same => other (List.inj_on_of_nodup_map names mem mem' same)
  have symm : Std.Symm (Function.onFun List.Disjoint fun t : TableDef =>
      t.constraints.filterMap (objectName t.name)) := ⟨fun _ _ disjoint => disjoint.symm⟩
  have across : schema.Pairwise (Function.onFun List.Disjoint fun t : TableDef =>
      t.constraints.filterMap (objectName t.name)) ↔ TablesApart schema := by
    constructor
    · intro pairwise t mem t' mem' c c_mem c' c_mem' kind kinds name name' columns columns' parts
        parts'
      by_cases same : t = t'
      · subst same
        exact not_continues_self _ _ _
      · have disjoint := pairwise.forall mem mem' same
        exact ((names_disjoint_iff (apart t mem t' mem' same)).mp disjoint c c_mem c' c_mem' kind
          kinds name name' columns columns' parts parts').1
    · intro tables
      refine names.of_map.pairwise_of_forall_ne fun t mem t' mem' other => ?_
      refine (names_disjoint_iff (apart t mem t' mem' other)).mpr ?_
      intro c c_mem c' c_mem' kind kinds name name' columns columns' parts parts'
      exact ⟨tables t mem t' mem' c c_mem c' c_mem' kind kinds name name' columns columns' parts
          parts',
        tables t' mem' t mem c' c_mem' c c_mem kind kinds name' name columns' columns parts' parts⟩
  have within : (∀ t ∈ schema, (t.constraints.filterMap (objectName t.name)).Nodup) ∧
      (∀ t ∈ schema, (foreignKeyNames t).Nodup) ↔ ∀ t ∈ schema, KeysApart t := by
    rw [← forall₂_and]
    exact forall₂_congr fun t mem => table_names_iff (different t mem) (declared t mem)
  rw [objectNames, List.nodup_flatMap, across, ← within]
  tauto

/-! A schema without such names, and two with them -/

def plainTable (name : String) (columns : List String) (constraints : List TableConstraint) :
    TableDef :=
  ⟨name, none, (("id" :: columns).map fun column => ColumnDef.new column (.simple .integer) false),
    .primaryKey false ["id"] .default :: constraints⟩

def crewTable : TableDef :=
  plainTable "team" ["email", "team"] [.unique none ["email"] .default, .index none ["team"]]

theorem team_names :
    (objectNames [crewTable]).Nodup ∧ ∀ t ∈ [crewTable], (foreignKeyNames t).Nodup := by
  refine (@object_names_distinct_iff id _ (by rfl) (by decide) ?_).mpr ⟨?_, ?_⟩
  · simp [DeclaredOnce, crewTable, plainTable, namedParts]
  · simp only [KeysApart, crewTable, plainTable, namedParts, List.mem_singleton, forall_eq,
      List.forall_mem_cons, reduceCtorEq, false_implies, implies_true, ne_eq, not_true_eq_false,
      Option.some.injEq, Prod.mk.injEq, and_true, true_and]
    refine ⟨fun _ kind _ _ _ _ unique index => ?_, fun _ kind _ _ _ _ index unique => ?_⟩
    · exact absurd (unique.1.trans index.1.symm) (by decide)
    · exact absurd (unique.1.trans index.1.symm) (by decide)
  · intro t mem t' mem'
    obtain rfl := List.mem_singleton.mp mem
    obtain rfl := List.mem_singleton.mp mem'
    intro _ _ _ _ _ _ _ _ _ _ _ _
    exact not_continues_self _ _ _

def logSchema : List TableDef :=
  [plainTable "user" ["log__id"] [.index none ["log__id"]],
    plainTable "user__log" [] [.index none ["id"]]]

def orderSchema : List TableDef :=
  [plainTable "user" ["a", "b"] [.index none ["a", "b"], .index none ["b", "a"]]]

theorem names_collide :
    (validateSchema id logSchema = .ok () ∧ (∀ t ∈ logSchema, t.constraints.Nodup) ∧
      (∀ t ∈ logSchema, DeclaredOnce t) ∧ ¬ (objectNames logSchema).Nodup) ∧
    (validateSchema id orderSchema = .ok () ∧ (∀ t ∈ orderSchema, t.constraints.Nodup) ∧
      (∀ t ∈ orderSchema, DeclaredOnce t) ∧ ¬ (objectNames orderSchema).Nodup) := by
  refine ⟨⟨by rfl, by decide, ?_, by decide⟩, ⟨by rfl, by decide, ?_, by decide⟩⟩
  · simp [DeclaredOnce, logSchema, plainTable, namedParts]
  · simp [DeclaredOnce, orderSchema, plainTable, namedParts]

end Vespertide
