import Vespertide.CreateTable
import Mathlib.Data.List.Nodup
import Mathlib.Data.List.Perm.Basic

/-!
Which constraints the statements of a new table establish, against those of the
normalised table. Each kind is counted on its own: unique constraints, foreign
keys and indexes pass through one channel, keys through two on SQLite, and
declared checks through none.
-/
namespace Vespertide

inductive Established where
  | primaryKey (columns : List String)
  | unique (name : Option String) (columns : List String)
  | foreignKey (stmt : ForeignKeyCreateStatement)
  | check (clause : CheckClause)
  | index (name : Option String) (columns : List String)
  deriving DecidableEq, Repr

def IndexCreateStatement.established (i : IndexCreateStatement) : Established :=
  if i.primary then .primaryKey i.columns
  else if i.unique then .unique i.name i.columns
  else .index i.name i.columns

def TableCreateStatement.established (stmt : TableCreateStatement) : List Established :=
  (stmt.columns.filter (·.primaryKey)).map (fun c => .primaryKey [c.name]) ++
    stmt.indexes.map (·.established) ++ stmt.foreignKeys.map .foreignKey ++
    stmt.checks.map .check

def BuiltQuery.established : BuiltQuery → List Established
  | .createTable stmt => stmt.established
  | .createIndex stmt => [stmt.established]
  | _ => []

/-- The constraint a declaration of the normalised table stands for. -/
def realised (table : String) : TableConstraint → Established
  | .primaryKey _ columns _ => .primaryKey columns
  | .unique name columns _ => .unique (some (buildUniqueConstraintName table columns name)) columns
  | .foreignKey name columns refTable refColumns onDelete onUpdate _ =>
      .foreignKey ⟨buildForeignKeyName table columns name, table, columns, refTable, refColumns,
        onDelete, onUpdate⟩
  | .check name expr _ => .check ⟨name, expr⟩
  | .index name columns => .index (some (buildIndexName table columns name)) columns

def enumChecks (backend : DatabaseBackend) (table : String) (columns : List ColumnDef) :
    List CheckClause :=
  if backend = .sqlite then collectSqliteEnumCheckClauses table columns else []

def expected (backend : DatabaseBackend) (t : TableDef) : List Established :=
  t.constraints.map (realised t.name) ++ (enumChecks backend t.name t.columns).map .check

def RealisesOnce (backend : DatabaseBackend) (t : TableDef) (queries : List BuiltQuery) : Prop :=
  ∀ e, (queries.flatMap (·.established)).count e = if e ∈ expected backend t then 1 else 0

/-! The condition -/

def primaryKeys (constraints : List TableConstraint) : List (Bool × List String) :=
  constraints.filterMap fun c =>
    match c with
    | .primaryKey autoIncrement columns _ => some (autoIncrement, columns)
    | _ => none

def autoIncrementColumns (t : TableDef) : List String :=
  (t.columns.filter fun c => decide (c.name ∈ collectAutoIncrementColumns t.constraints) &&
    c.type.supportsAutoIncrement).map (·.name)

/-- An auto-increment key of SQLite is one integer column. -/
structure SqliteKeys (t : TableDef) : Prop where
  single : ∀ c ∈ autoIncrementColumns t, (true, [c]) ∈ primaryKeys t.constraints
  whole : ∀ k, (true, k) ∈ primaryKeys t.constraints → (∀ c ∈ k, c ∈ autoIncrementColumns t) →
    k.length = 1 ∨ (false, k) ∈ primaryKeys t.constraints
  apart : ∀ c ∈ autoIncrementColumns t, (false, [c]) ∉ primaryKeys t.constraints
  names : (autoIncrementColumns t).Nodup
  clauses : (((primaryKeys t.constraints).filter fun k =>
    ¬ (k.1 ∧ ∀ c ∈ k.2, c ∈ autoIncrementColumns t)).map (·.2)).Nodup

/-- No column declares `primary_key: false` where the table has no key. -/
def NoStrayKey (t : TableDef) : Prop :=
  primaryKeys t.constraints = [] → ∀ c ∈ t.columns, c.primaryKey = none

def TableConstraint.isOther : TableConstraint → Bool
  | .unique _ _ _ => true
  | .foreignKey _ _ _ _ _ _ _ => true
  | .index _ _ => true
  | _ => false

/-- Unique constraints, foreign keys and indexes under their physical names. -/
def otherConstraints (t : TableDef) : List Established :=
  (t.constraints.filter (·.isOther)).map (realised t.name)

structure EmittedOnce (backend : DatabaseBackend) (t : TableDef) : Prop where
  stray : NoStrayKey t
  keys : if backend = .sqlite then SqliteKeys t else ((primaryKeys t.constraints).map (·.2)).Nodup
  checks : ∀ name expr strategy, .check name expr strategy ∈ t.constraints →
    ⟨name, expr⟩ ∈ enumChecks backend t.name t.columns
  enums : (enumChecks backend t.name t.columns).Nodup
  others : (otherConstraints t).Nodup

/-! What the channels establish -/

section Channels
variable (backend : DatabaseBackend) (t : TableDef)

def keyFlags : List String :=
  (t.columns.filter fun c => (createTableColumn backend t.constraints c).primaryKey).map (·.name)

def keyClauses : List (List String) :=
  ((primaryKeys t.constraints).filter fun k =>
    !shouldSkipSqliteAutoIncrementPk backend t.columns k.2 k.1).map (·.2)

/-- What the declaration itself leads to, the flags of the columns apart. -/
def emitted (c : TableConstraint) : List Established :=
  match c with
  | .primaryKey autoIncrement columns _ =>
      if shouldSkipSqliteAutoIncrementPk backend t.columns columns autoIncrement then []
      else [.primaryKey columns]
  | .check _ _ _ => []
  | c => [realised t.name c]

end Channels

theorem has_primary_key_filter (constraints : List TableConstraint) :
    hasPrimaryKeyConstraint (constraints.filter (!·.isUnique)) =
      hasPrimaryKeyConstraint constraints := by
  rw [hasPrimaryKeyConstraint, List.any_filter, hasPrimaryKeyConstraint]
  congr 1
  funext c
  cases c <;> rfl

theorem flat_map_filter {β : Type} (f : TableConstraint → List β)
    (nothing : ∀ c, c.isUnique = true → f c = []) (constraints : List TableConstraint) :
    (constraints.filter (!·.isUnique)).flatMap f = constraints.flatMap f := by
  induction constraints with
  | nil => rfl
  | cons c rest ih =>
    cases unique : c.isUnique <;> simp [unique, ih, nothing]

theorem auto_increment_filter (constraints : List TableConstraint) :
    collectAutoIncrementColumns (constraints.filter (!·.isUnique)) =
      collectAutoIncrementColumns constraints :=
  flat_map_filter _ (by rintro (_ | _ | _ | _ | _) <;> simp [TableConstraint.isUnique]) constraints

/-- Setting the unique constraints aside changes nothing outside MySQL. -/
theorem create_table_without_uniques {backend : DatabaseBackend} (apart : backend ≠ .mySql)
    (table : String) (columns : List ColumnDef) (constraints : List TableConstraint) :
    buildCreateTableForBackend backend table columns (constraints.filter (!·.isUnique)) =
      buildCreateTableForBackend backend table columns constraints := by
  have flags : createTableColumn backend (constraints.filter (!·.isUnique)) =
      createTableColumn backend constraints := by
    funext column
    simp only [createTableColumn, has_primary_key_filter, auto_increment_filter]
  have indexes := flat_map_filter (constraintIndexes backend table columns)
    (by rintro (_ | _ | _ | _ | _) <;> simp [TableConstraint.isUnique, constraintIndexes,
      mysqlUniqueClause, apart]) constraints
  have foreignKeys := flat_map_filter (constraintForeignKeys table)
    (by rintro (_ | _ | _ | _ | _) <;> simp [TableConstraint.isUnique, constraintForeignKeys])
    constraints
  simp only [buildCreateTableForBackend, flags, indexes, foreignKeys]

theorem enum_types_establish_nothing (table : String) (created : List String)
    (columns : List ColumnDef) :
    (createEnumTypes table created columns).flatMap (·.established) = [] := by
  induction columns generalizing created with
  | nil => rfl
  | cons column rest ih =>
    simp only [createEnumTypes]
    split
    · split
      · exact ih created
      · split
        · simpa [BuiltQuery.established] using ih _
        · exact ih _
    · exact ih created

section Channels
variable (backend : DatabaseBackend) (t : TableDef)

theorem queries_established :
    (createTableQueries backend t.name t.columns t.constraints).flatMap (·.established) =
      (keyFlags backend t).map (fun c => Established.primaryKey [c]) ++
        (t.constraints.flatMap (constraintIndexes backend t.name t.columns)).map (·.established) ++
        (t.constraints.flatMap (constraintForeignKeys t.name)).map Established.foreignKey ++
        (enumChecks backend t.name t.columns).map Established.check ++
        (if backend = .mySql then [] else t.constraints.flatMap (uniqueIndexes t.name)).flatMap
          (·.established) ++
        (t.constraints.flatMap (plainIndexes t.name)).flatMap (·.established) := by
  have stmt : (if backend = .mySql ∨ ¬ t.constraints.any (·.isUnique) then
      buildCreateTableForBackend backend t.name t.columns t.constraints
    else buildCreateTableForBackend backend t.name t.columns
      (t.constraints.filter (!·.isUnique))) =
      buildCreateTableForBackend backend t.name t.columns t.constraints := by
    split
    · rfl
    · rename_i apart
      exact create_table_without_uniques (fun h => apart (Or.inl h)) _ _ _
  have flags : ((t.columns.map (createTableColumn backend t.constraints)).filter
      (·.primaryKey)).map (fun c => Established.primaryKey [c.name]) =
      (keyFlags backend t).map (fun c => .primaryKey [c]) := by
    rw [keyFlags, List.filter_map, List.map_map, List.map_map]
    rfl
  simp only [createTableQueries, stmt, List.flatMap_append, enum_types_establish_nothing,
    List.nil_append]
  by_cases lite : backend = .sqlite
  · subst lite
    simp [buildCreateWithChecks, BuiltQuery.established, TableCreateStatement.established,
      buildCreateTableForBackend, enumChecks, ← flags]
  · simp [lite, BuiltQuery.established, TableCreateStatement.established,
      buildCreateTableForBackend, enumChecks, ← flags]

theorem emitted_channels (c : TableConstraint) :
    emitted backend t c = (constraintIndexes backend t.name t.columns c).map (·.established) ++
      ((constraintForeignKeys t.name c).map .foreignKey ++
        ((if backend = .mySql then [] else uniqueIndexes t.name c).flatMap (·.established) ++
          (plainIndexes t.name c).flatMap (·.established))) := by
  cases c with
  | primaryKey autoIncrement columns strategy =>
    simp only [emitted, constraintIndexes, primaryKeyClause, constraintForeignKeys, uniqueIndexes,
      plainIndexes]
    split <;> simp [IndexCreateStatement.established]
  | unique name columns strategy =>
    by_cases my : backend = .mySql <;>
    simp [emitted, constraintIndexes, mysqlUniqueClause, constraintForeignKeys, uniqueIndexes,
      plainIndexes, IndexCreateStatement.established, BuiltQuery.established, realised, my]
  | foreignKey | check | index =>
    simp [emitted, constraintIndexes, constraintForeignKeys, uniqueIndexes, plainIndexes,
      IndexCreateStatement.established, BuiltQuery.established, realised]

theorem queries_established_perm :
    ((createTableQueries backend t.name t.columns t.constraints).flatMap (·.established)).Perm
      ((keyFlags backend t).map (fun c => Established.primaryKey [c]) ++
        t.constraints.flatMap (emitted backend t) ++
        (enumChecks backend t.name t.columns).map Established.check) := by
  rw [queries_established]
  have uniques : (if backend = .mySql then [] else
      t.constraints.flatMap (uniqueIndexes t.name)).flatMap (·.established) =
      t.constraints.flatMap fun c =>
        (if backend = .mySql then [] else uniqueIndexes t.name c).flatMap (·.established) := by
    by_cases my : backend = .mySql <;> simp [my, List.flatMap_assoc]
  rw [funext (emitted_channels backend t), uniques, List.map_flatMap, List.map_flatMap,
    List.flatMap_assoc]
  have plain := List.flatMap_append_perm t.constraints
    (fun c => (if backend = .mySql then [] else uniqueIndexes t.name c).flatMap
      BuiltQuery.established)
    (fun c => (plainIndexes t.name c).flatMap BuiltQuery.established)
  have foreign := List.flatMap_append_perm t.constraints
    (fun c => (constraintForeignKeys t.name c).map Established.foreignKey)
    (fun c => (if backend = .mySql then [] else uniqueIndexes t.name c).flatMap
      BuiltQuery.established ++ (plainIndexes t.name c).flatMap BuiltQuery.established)
  have all := List.flatMap_append_perm t.constraints
    (fun c => (constraintIndexes backend t.name t.columns c).map
      IndexCreateStatement.established)
    (fun c => (constraintForeignKeys t.name c).map Established.foreignKey ++
      ((if backend = .mySql then [] else uniqueIndexes t.name c).flatMap
        BuiltQuery.established ++ (plainIndexes t.name c).flatMap BuiltQuery.established))
  have joined := ((plain.append_left _).trans foreign).append_left
    (t.constraints.flatMap fun c => (constraintIndexes backend t.name t.columns c).map
      IndexCreateStatement.established)
  have whole := (joined.trans all).append_left
    ((keyFlags backend t).map fun c => Established.primaryKey [c])
  refine List.Perm.trans ?_ (whole.append_right ((enumChecks backend t.name t.columns).map .check))
  simp only [List.append_assoc]
  refine List.Perm.append_left _ (List.Perm.append_left _ (List.Perm.append_left _ ?_))
  exact List.perm_append_comm.trans (List.Perm.of_eq (List.append_assoc _ _ _))

theorem emitted_primary_keys :
    (t.constraints.filter (·.isPrimaryKey)).flatMap (emitted backend t) =
      (keyClauses backend t).map .primaryKey := by
  rw [keyClauses, primaryKeys]
  induction t.constraints with
  | nil => rfl
  | cons c rest ih =>
    cases c with
    | primaryKey autoIncrement columns strategy =>
      rw [List.filter_cons_of_pos rfl, List.flatMap_cons, ih]
      by_cases skip : shouldSkipSqliteAutoIncrementPk backend t.columns columns autoIncrement <;>
        simp [emitted, skip]
    | unique | foreignKey | check | index => exact ih

theorem emitted_others :
    (t.constraints.filter (!·.isPrimaryKey)).flatMap (emitted backend t) =
      (t.constraints.filter (·.isOther)).map (realised t.name) := by
  induction t.constraints with
  | nil => rfl
  | cons c rest ih =>
    cases c with
    | primaryKey | check => exact ih
    | unique | foreignKey | index => exact congrArg (_ :: ·) ih

def emittedKeys : List (List String) := (keyFlags backend t).map ([·]) ++ keyClauses backend t

theorem queries_established_kinds :
    ((createTableQueries backend t.name t.columns t.constraints).flatMap (·.established)).Perm
      ((emittedKeys backend t).map .primaryKey ++ otherConstraints t ++
        (enumChecks backend t.name t.columns).map .check) := by
  refine (queries_established_perm backend t).trans (List.Perm.append_right _ ?_)
  have kinds := (List.filter_append_perm (·.isPrimaryKey) t.constraints).flatMap_right
    (emitted backend t)
  rw [List.flatMap_append, emitted_primary_keys, emitted_others] at kinds
  rw [emittedKeys, List.map_append, List.map_map, List.append_assoc]
  exact kinds.symm.append_left _

theorem realises_once_iff {queries : List BuiltQuery} :
    RealisesOnce backend t queries ↔ (queries.flatMap (·.established)).Nodup ∧
      ∀ e, e ∈ queries.flatMap (·.established) ↔ e ∈ expected backend t := by
  constructor
  · intro once
    refine ⟨List.nodup_iff_count_le_one.mpr fun e => ?_, fun e => ?_⟩
    · rw [once e]
      split <;> omega
    · rw [← List.count_pos_iff, once e]
      split <;> simp_all
  · rintro ⟨nodup, same⟩ e
    split
    · rename_i mem
      exact List.count_eq_one_of_mem nodup ((same e).mpr mem)
    · rename_i absent
      exact List.count_eq_zero_of_not_mem fun mem => absent ((same e).mp mem)

omit backend in
theorem other_kind {e : Established} (mem : e ∈ otherConstraints t) :
    (∀ k, e ≠ .primaryKey k) ∧ ∀ clause, e ≠ .check clause := by
  obtain ⟨c, found, rfl⟩ := List.mem_map.mp mem
  have kind := (List.mem_filter.mp found).2
  cases c <;> simp [realised, TableConstraint.isOther] at kind ⊢

theorem mem_expected_key {k : List String} :
    .primaryKey k ∈ expected backend t ↔ k ∈ (primaryKeys t.constraints).map (·.2) := by
  simp only [expected, List.mem_append, List.mem_map, reduceCtorEq, and_false, exists_false,
    or_false, primaryKeys, List.mem_filterMap]
  constructor
  · rintro ⟨c, mem, same⟩
    cases c <;> simp only [realised, reduceCtorEq, Established.primaryKey.injEq] at same
    rename_i autoIncrement columns strategy
    exact ⟨(autoIncrement, columns), ⟨_, mem, rfl⟩, same⟩
  · rintro ⟨⟨a, _⟩, ⟨c, mem, found⟩, rfl⟩
    cases c <;> simp only [reduceCtorEq, Option.some.injEq, Prod.mk.injEq] at found
    exact ⟨_, mem, by rw [realised, found.2]⟩

theorem mem_expected_check {clause : CheckClause} :
    .check clause ∈ expected backend t ↔
      (∃ strategy, .check clause.name clause.expr strategy ∈ t.constraints) ∨
        clause ∈ enumChecks backend t.name t.columns := by
  simp only [expected, List.mem_append, List.mem_map, Established.check.injEq, exists_eq_right]
  refine or_congr_left ⟨?_, ?_⟩
  · rintro ⟨c, mem, same⟩
    cases c <;> simp only [realised, reduceCtorEq, Established.check.injEq] at same
    subst same
    exact ⟨_, mem⟩
  · rintro ⟨strategy, mem⟩
    exact ⟨_, mem, rfl⟩

theorem mem_expected_other {e : Established} (key : ∀ k, e ≠ .primaryKey k)
    (check : ∀ clause, e ≠ .check clause) :
    e ∈ expected backend t ↔ e ∈ otherConstraints t := by
  simp only [expected, otherConstraints, List.mem_append, List.mem_map, List.mem_filter]
  constructor
  · rintro (⟨c, mem, rfl⟩ | ⟨clause, _, rfl⟩)
    · refine ⟨c, ⟨mem, ?_⟩, rfl⟩
      cases c <;> simp [realised, TableConstraint.isOther] at key check ⊢
    · exact absurd rfl (check clause)
  · rintro ⟨c, ⟨mem, _⟩, rfl⟩
    exact Or.inl ⟨c, mem, rfl⟩

/-- Each kind for itself: the keys, the checks, and the other three. -/
theorem realises_iff_kinds :
    RealisesOnce backend t (createTableQueries backend t.name t.columns t.constraints) ↔
      ((emittedKeys backend t).Nodup ∧
        ∀ k, k ∈ emittedKeys backend t ↔ k ∈ (primaryKeys t.constraints).map (·.2)) ∧
      (otherConstraints t).Nodup ∧ (enumChecks backend t.name t.columns).Nodup ∧
      ∀ name expr strategy, .check name expr strategy ∈ t.constraints →
        ⟨name, expr⟩ ∈ enumChecks backend t.name t.columns := by
  have kinds := queries_established_kinds backend t
  rw [realises_once_iff, kinds.nodup_iff]
  simp only [kinds.mem_iff]
  have nodup : ((emittedKeys backend t).map Established.primaryKey ++ otherConstraints t ++
      (enumChecks backend t.name t.columns).map Established.check).Nodup ↔
      (emittedKeys backend t).Nodup ∧ (otherConstraints t).Nodup ∧
        (enumChecks backend t.name t.columns).Nodup := by
    rw [List.nodup_append', List.nodup_append', List.nodup_map_iff fun a b h => by
      injection h, List.nodup_map_iff fun a b h => by injection h]
    constructor
    · rintro ⟨⟨keys, others, _⟩, checks, _⟩
      exact ⟨keys, others, checks⟩
    · rintro ⟨keys, others, checks⟩
      refine ⟨⟨keys, others, ?_⟩, checks, ?_⟩
      · intro e mem other
        obtain ⟨k, _, rfl⟩ := List.mem_map.mp mem
        exact (other_kind t other).1 k rfl
      · intro e mem check
        obtain ⟨clause, _, rfl⟩ := List.mem_map.mp check
        rcases List.mem_append.mp mem with key | other
        · simp at key
        · exact (other_kind t other).2 clause rfl
  rw [nodup]
  constructor
  · rintro ⟨⟨keys, others, checks⟩, same⟩
    refine ⟨⟨keys, fun k => ?_⟩, others, checks, fun name expr strategy mem => ?_⟩
    · have here := same (.primaryKey k)
      rw [mem_expected_key] at here
      rw [← here]
      simp only [List.mem_append, List.mem_map, Established.primaryKey.injEq, exists_eq_right,
        reduceCtorEq, and_false, exists_false, or_false]
      exact ⟨Or.inl, fun h => h.resolve_right fun other => (other_kind t other).1 k rfl⟩
    · have here := (same (.check ⟨name, expr⟩)).mpr
        ((mem_expected_check backend t).mpr (Or.inl ⟨strategy, mem⟩))
      simp only [List.mem_append, List.mem_map, reduceCtorEq, and_false, exists_false, false_or,
        Established.check.injEq, exists_eq_right] at here
      exact here.resolve_left fun other => (other_kind t other).2 _ rfl
  · rintro ⟨⟨keys, key_mem⟩, others, checks, covered⟩
    refine ⟨⟨keys, others, checks⟩, fun e => ?_⟩
    cases e with
    | primaryKey k =>
      rw [mem_expected_key, ← key_mem]
      simp only [List.mem_append, List.mem_map, Established.primaryKey.injEq, exists_eq_right,
        reduceCtorEq, and_false, exists_false, or_false]
      exact ⟨fun h => h.resolve_right fun other => (other_kind t other).1 k rfl, Or.inl⟩
    | check clause =>
      rw [mem_expected_check]
      simp only [List.mem_append, List.mem_map, reduceCtorEq, and_false, exists_false, false_or,
        Established.check.injEq, exists_eq_right]
      constructor
      · exact fun h => Or.inr (h.resolve_left fun other => (other_kind t other).2 _ rfl)
      · rintro (⟨strategy, mem⟩ | mem)
        · exact Or.inr (covered _ _ strategy mem)
        · exact Or.inr mem
    | unique | foreignKey | index =>
      rw [mem_expected_other backend t (by simp) (by simp)]
      simp

/-! Keys -/

theorem keyless (none_ : primaryKeys t.constraints = []) :
    hasPrimaryKeyConstraint t.constraints = false ∧
      collectAutoIncrementColumns t.constraints = [] := by
  have kinds : ∀ c ∈ t.constraints, c.isPrimaryKey = false := by
    intro c mem
    have absent := List.filterMap_eq_nil_iff.mp none_ c mem
    cases c <;> simp [TableConstraint.isPrimaryKey] at absent ⊢
  constructor
  · simpa [hasPrimaryKeyConstraint] using kinds
  · rw [collectAutoIncrementColumns, List.flatMap_eq_nil_iff]
    intro c mem
    have kind := kinds c mem
    cases c <;> simp [TableConstraint.isPrimaryKey] at kind ⊢

theorem keyed (some_ : primaryKeys t.constraints ≠ []) :
    hasPrimaryKeyConstraint t.constraints = true := by
  obtain ⟨k, mem⟩ := List.exists_mem_of_ne_nil _ some_
  obtain ⟨c, found, here⟩ := List.mem_filterMap.mp mem
  refine List.any_eq_true.mpr ⟨c, found, ?_⟩
  cases c <;> simp [TableConstraint.isPrimaryKey] at here ⊢

theorem mem_collect_auto {c : String} :
    c ∈ collectAutoIncrementColumns t.constraints ↔
      ∃ k, (true, k) ∈ primaryKeys t.constraints ∧ c ∈ k := by
  simp only [collectAutoIncrementColumns, List.mem_flatMap, primaryKeys, List.mem_filterMap]
  constructor
  · rintro ⟨d, mem, here⟩
    split at here
    · exact ⟨_, ⟨_, mem, rfl⟩, here⟩
    · simp at here
  · rintro ⟨k, ⟨d, mem, found⟩, here⟩
    cases d <;> simp only [reduceCtorEq, Option.some.injEq, Prod.mk.injEq] at found
    obtain ⟨rfl, rfl⟩ := found
    exact ⟨_, mem, here⟩

theorem mem_auto_increment_columns {c : String} :
    c ∈ autoIncrementColumns t ↔ (∃ k, (true, k) ∈ primaryKeys t.constraints ∧ c ∈ k) ∧
      ∃ d ∈ t.columns, d.name = c ∧ d.type.supportsAutoIncrement := by
  simp only [autoIncrementColumns, List.mem_map, List.mem_filter, Bool.and_eq_true,
    decide_eq_true_eq, mem_collect_auto]
  constructor
  · rintro ⟨d, ⟨mem, named, integer⟩, rfl⟩
    exact ⟨named, d, mem, rfl, integer⟩
  · rintro ⟨named, d, mem, rfl, integer⟩
    exact ⟨d, ⟨mem, named, integer⟩, rfl⟩

theorem skipped_key_iff {k : Bool × List String} (mem : k ∈ primaryKeys t.constraints) :
    shouldSkipSqliteAutoIncrementPk .sqlite t.columns k.2 k.1 = true ↔
      k.1 = true ∧ ∀ c ∈ k.2, c ∈ autoIncrementColumns t := by
  obtain ⟨auto, k⟩ := k
  simp only [shouldSkipSqliteAutoIncrementPk, decide_eq_true_eq, true_and,
    mem_auto_increment_columns]
  refine and_congr_right fun isAuto => ?_
  subst isAuto
  exact forall₂_congr fun c here => ⟨fun h => ⟨⟨k, mem, here⟩, h⟩, And.right⟩

theorem key_flags_eq :
    keyFlags backend t = if primaryKeys t.constraints = [] then
        (t.columns.filter (·.primaryKey.isSome)).map (·.name)
      else if backend = .sqlite then autoIncrementColumns t else [] := by
  rw [keyFlags]
  split
  · rename_i none_
    obtain ⟨absent, noAuto⟩ := keyless t none_
    simp [createTableColumn, absent, noAuto]
  · rename_i some_
    by_cases lite : backend = .sqlite <;>
      simp [createTableColumn, keyed t some_, lite, autoIncrementColumns]

theorem mem_key_clauses {k : List String} :
    k ∈ keyClauses .sqlite t ↔ ∃ auto, (auto, k) ∈ primaryKeys t.constraints ∧
      ¬ (auto = true ∧ ∀ c ∈ k, c ∈ autoIncrementColumns t) := by
  simp only [keyClauses, List.mem_map, List.mem_filter, Bool.not_eq_true']
  constructor
  · rintro ⟨⟨auto, _⟩, ⟨mem, kept⟩, rfl⟩
    refine ⟨auto, mem, fun skip => ?_⟩
    simp [(skipped_key_iff t mem).mpr skip] at kept
  · rintro ⟨auto, mem, kept⟩
    refine ⟨(auto, k), ⟨mem, ?_⟩, rfl⟩
    rw [Bool.eq_false_iff]
    exact fun skip => kept ((skipped_key_iff t mem).mp skip)

theorem sqlite_keys_iff (some_ : primaryKeys t.constraints ≠ []) :
    ((emittedKeys .sqlite t).Nodup ∧
      ∀ k, k ∈ emittedKeys .sqlite t ↔ k ∈ (primaryKeys t.constraints).map (·.2)) ↔
      SqliteKeys t := by
  have flags : keyFlags .sqlite t = autoIncrementColumns t := by simp [key_flags_eq, some_]
  have mem_clause := fun k => mem_key_clauses t (k := k)
  have mem_keys : ∀ k, k ∈ emittedKeys .sqlite t ↔
      (∃ c ∈ autoIncrementColumns t, k = [c]) ∨ k ∈ keyClauses .sqlite t := by
    intro k
    simp only [emittedKeys, flags, List.mem_append, List.mem_map, eq_comm]
  have declared : ∀ k, k ∈ (primaryKeys t.constraints).map (·.2) ↔
      ∃ auto, (auto, k) ∈ primaryKeys t.constraints := by simp
  have clauses_eq : keyClauses .sqlite t = ((primaryKeys t.constraints).filter fun k =>
      ¬ (k.1 ∧ ∀ c ∈ k.2, c ∈ autoIncrementColumns t)).map (·.2) := by
    rw [keyClauses]
    congr 1
    refine List.filter_congr fun k mem => ?_
    have skip := skipped_key_iff t mem
    rw [Bool.eq_iff_iff, Bool.not_eq_true', ← Bool.not_eq_true, skip, decide_eq_true_eq]
  have nodup : (emittedKeys .sqlite t).Nodup ↔ (autoIncrementColumns t).Nodup ∧
      (keyClauses .sqlite t).Nodup ∧ ∀ c ∈ autoIncrementColumns t, [c] ∉ keyClauses .sqlite t := by
    rw [emittedKeys, flags, List.nodup_append', List.nodup_map_iff fun a b h => by simpa using h]
    simp [List.disjoint_left]
  rw [nodup]
  simp only [mem_keys, declared]
  constructor
  · rintro ⟨⟨names, clauses, apart⟩, same⟩
    constructor
    · intro c mem
      obtain ⟨auto, key⟩ := (same [c]).mp (Or.inl ⟨c, mem, rfl⟩)
      have skip : auto = true ∧ ∀ d ∈ [c], d ∈ autoIncrementColumns t := by
        by_contra kept
        exact apart c mem ((mem_clause [c]).mpr ⟨auto, key, kept⟩)
      rwa [skip.1] at key
    · intro k key skip
      rcases (same k).mpr ⟨true, key⟩ with ⟨c, _, rfl⟩ | clause
      · exact Or.inl rfl
      · obtain ⟨auto, key', kept⟩ := (mem_clause k).mp clause
        cases auto with
        | false => exact Or.inr key'
        | true => exact absurd ⟨rfl, skip⟩ kept
    · intro c mem plain
      exact apart c mem ((mem_clause [c]).mpr ⟨false, plain, by simp⟩)
    · exact names
    · rwa [← clauses_eq]
  · rintro ⟨single, whole, apart, names, clauses⟩
    refine ⟨⟨names, clauses_eq ▸ clauses, ?_⟩, ?_⟩
    · intro c mem clause
      obtain ⟨auto, key, kept⟩ := (mem_clause [c]).mp clause
      cases auto with
      | false => exact apart c mem key
      | true => exact kept ⟨rfl, by simpa using mem⟩
    · intro k
      constructor
      · rintro (⟨c, mem, rfl⟩ | clause)
        · exact ⟨true, single c mem⟩
        · obtain ⟨auto, key, _⟩ := (mem_clause k).mp clause
          exact ⟨auto, key⟩
      · rintro ⟨auto, key⟩
        by_cases skip : auto = true ∧ ∀ c ∈ k, c ∈ autoIncrementColumns t
        · obtain ⟨rfl, all⟩ := skip
          rcases whole k key all with one | plain
          · obtain ⟨c, rfl⟩ := List.length_eq_one_iff.mp one
            exact Or.inl ⟨c, by simpa using all, rfl⟩
          · exact Or.inr ((mem_clause k).mpr ⟨false, plain, by simp⟩)
        · exact Or.inr ((mem_clause k).mpr ⟨auto, key, skip⟩)

theorem keys_once_iff :
    ((emittedKeys backend t).Nodup ∧
      ∀ k, k ∈ emittedKeys backend t ↔ k ∈ (primaryKeys t.constraints).map (·.2)) ↔
      NoStrayKey t ∧ if backend = .sqlite then SqliteKeys t
        else ((primaryKeys t.constraints).map (·.2)).Nodup := by
  by_cases none_ : primaryKeys t.constraints = []
  · obtain ⟨_, noAuto⟩ := keyless t none_
    have trivial_keys : SqliteKeys t := by
      constructor <;> simp [autoIncrementColumns, noAuto, none_]
    have plain : (if backend = .sqlite then SqliteKeys t
        else ((primaryKeys t.constraints).map (·.2)).Nodup) := by
      split
      · exact trivial_keys
      · simp [none_]
    refine Iff.trans ?_ (and_iff_left plain).symm
    have keys : emittedKeys backend t =
        ((t.columns.filter (·.primaryKey.isSome)).map (·.name)).map ([·]) := by
      simp [emittedKeys, key_flags_eq, keyClauses, none_]
    rw [keys]
    simp only [NoStrayKey, none_, forall_const]
    constructor
    · rintro ⟨_, same⟩ c mem
      by_contra declared
      have flagged : c ∈ t.columns.filter (·.primaryKey.isSome) :=
        List.mem_filter.mpr ⟨mem, Option.isSome_iff_ne_none.mpr declared⟩
      have here := (same [c.name]).mp (List.mem_map_of_mem (List.mem_map_of_mem flagged))
      simp at here
    · intro undeclared
      have empty : t.columns.filter (·.primaryKey.isSome) = [] := by
        rw [List.filter_eq_nil_iff]
        intro c mem
        simp [undeclared c mem]
      simp [empty]
  · have moot : NoStrayKey t := fun h => absurd h none_
    simp only [moot, true_and]
    by_cases lite : backend = .sqlite
    · subst lite
      simpa using sqlite_keys_iff t none_
    · have keys : emittedKeys backend t = (primaryKeys t.constraints).map (·.2) := by
        have kept : ∀ k : Bool × List String,
            shouldSkipSqliteAutoIncrementPk backend t.columns k.2 k.1 = false := by
          simp [shouldSkipSqliteAutoIncrementPk, lite]
        simp [emittedKeys, key_flags_eq, keyClauses, none_, lite, kept]
      simp [keys, lite]

end Channels

/-- A created table has its constraints once exactly on this condition. -/
theorem create_table_realises_iff (backend : DatabaseBackend) (table : String)
    (columns : List ColumnDef) (constraints : List TableConstraint) {t : TableDef}
    {queries : List BuiltQuery}
    (normalized : (TableDef.mk table none columns constraints).normalize = .ok t)
    (built : buildCreateTable backend table columns constraints = .ok queries) :
    RealisesOnce backend t queries ↔ EmittedOnce backend t := by
  have name : t.name = table := (normalize_fields normalized).1
  simp only [buildCreateTable, normalized, Except.ok.injEq] at built
  rw [← built, ← name, realises_iff_kinds, keys_once_iff]
  constructor
  · rintro ⟨⟨stray, keys⟩, others, enums, checks⟩
    exact ⟨stray, keys, checks, enums, others⟩
  · rintro ⟨stray, keys, checks, enums, others⟩
    exact ⟨⟨stray, keys⟩, others, enums, checks⟩

def pricedTable : TableDef :=
  { name := "product"
    description := none
    columns := [.new "id" (.simple .integer) false, .new "price" (.simple .integer) false]
    constraints :=
      [.primaryKey false ["id"] .default, .check "chk_price" "price > 0" .deleteViolatingRows] }

def pricedQueries : List BuiltQuery :=
  createTableQueries .postgres "product" pricedTable.columns pricedTable.constraints

/-- A declared check is established by no statement. -/
theorem declared_check_missing :
    pricedTable.normalize = .ok pricedTable ∧
      buildCreateTable .postgres "product" pricedTable.columns pricedTable.constraints =
        .ok pricedQueries ∧
      ¬ RealisesOnce .postgres pricedTable pricedQueries := by
  refine ⟨rfl, rfl, fun once => ?_⟩
  have check := once (.check ⟨"chk_price", "price > 0"⟩)
  revert check
  decide

theorem declared_check_condition :
    RealisesOnce .postgres pricedTable pricedQueries ↔ EmittedOnce .postgres pricedTable :=
  create_table_realises_iff .postgres "product" pricedTable.columns pricedTable.constraints rfl rfl

end Vespertide
