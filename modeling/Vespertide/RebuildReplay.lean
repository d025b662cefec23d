import Vespertide.ActionSteps
import Vespertide.CreateTableExact
import Vespertide.SqliteRebuild
import Mathlib.Data.List.TakeWhile

/-!
The rebuilt table against replay, which works out the columns and the constraints
of its own table. Replay keeps whatever a rebuild carries over, so the two agree
where all that replay has beyond that stands in the rebuilt table as well.
-/
namespace Vespertide
open Registry

/-! A table against its definition -/

/-- A foreign key without its name, which SQLite is not sent. -/
structure ForeignReference where
  columns : List String
  refTable : String
  refColumns : List String
  onDelete : Option ReferenceAction
  onUpdate : Option ReferenceAction
  deriving DecidableEq, Repr

def ForeignKeyCreateStatement.reference (fk : ForeignKeyCreateStatement) : ForeignReference :=
  ⟨fk.fromColumns, fk.toTable, fk.toColumns, fk.onDelete, fk.onUpdate⟩

def foreignReference : TableConstraint → Option ForeignReference
  | .foreignKey _ columns refTable refColumns onDelete onUpdate _ =>
      some ⟨columns, refTable, refColumns, onDelete, onUpdate⟩
  | _ => none

def foreignReferences (constraints : List TableConstraint) : List ForeignReference :=
  constraints.filterMap foreignReference

def keyColumns (constraints : List TableConstraint) : List (List String) :=
  (primaryKeys constraints).map (·.2)

/-- The flags of a key belong to the key, not to its columns. -/
def SeaColumnDef.unflagged (c : SeaColumnDef) : SeaColumnDef :=
  { c with primaryKey := false, autoIncrement := false }

structure SameTable (left : TableCreateStatement) (t : TableDef) : Prop where
  columns : left.columns.map (·.unflagged) = t.columns.map buildSeaColumnDef
  keys : ∀ k, .primaryKey k ∈ left.established ↔ k ∈ keyColumns t.constraints
  references : ∀ r, r ∈ left.foreignKeys.map (·.reference) ↔ r ∈ foreignReferences t.constraints
  checks : ∀ c, c ∈ left.checks ↔ c ∈ collectAllCheckClauses t.name t.columns t.constraints

/-- Whatever the database, the statements leave the table that `t` declares. -/
def LeavesTable (table : String) (queries : List BuiltQuery) (t : TableDef) : Prop :=
  ∀ db db', runSteps runOnTables db queries = some db' →
    ∃ left, db' table = some left ∧ SameTable left t

/-! The condition -/

section Condition
variable (t : TableDef)

/-- What replay has beyond these: a promoted declaration, a constraint that lost a
    column, a constraint taken for the one that is added or removed, a further copy
    of the one that is replaced. -/
def uncarriedConstraints : MigrationAction → List TableConstraint
  | .addColumn _ column _ =>
      (promoted { t with columns := t.columns ++ [column] }).filter (· ∉ t.constraints)
  | .deleteColumn _ column =>
      (t.constraints.filter (!keptWithoutColumn column ·)).filterMap
        (dropColumnFromConstraint column)
  | .addConstraint _ constraint =>
      t.constraints.filter fun c => constraintsOverlap c constraint ∧ c ≠ constraint
  | .removeConstraint _ constraint =>
      t.constraints.filter fun c => sameConstraint c constraint ∧ c ≠ constraint
  | .replaceConstraint _ old _ => (t.constraints.erase old).filter (· = old)
  | _ => []

/-- What a rebuild carries over and replay has not: a constraint on no column goes
    with any column that is dropped. -/
def emptyConstraints : MigrationAction → List TableConstraint
  | .deleteColumn _ column => t.constraints.filter fun c =>
      keptWithoutColumn column c ∧ dropColumnFromConstraint column c = none
  | _ => []

/-- The keys of the rebuilt table: its flags where no key is carried over, else the
    keys carried over, an auto-increment key standing as flags. -/
structure KeysFollow (a : MigrationAction) : Prop where
  stray : primaryKeys (rebuiltConstraints t a) = [] → ∀ c ∈ rebuiltColumns t a,
    c.primaryKey.isSome → [c.name] ∈ keyColumns (uncarriedConstraints t a)
  single : ∀ c ∈ autoIncrementColumns ⟨t.name, none, rebuiltColumns t a, rebuiltConstraints t a⟩,
    [c] ∈ keyColumns (rebuiltConstraints t a) ∨ [c] ∈ keyColumns (uncarriedConstraints t a)
  whole : ∀ k, (true, k) ∈ primaryKeys (rebuiltConstraints t a) →
    (∀ c ∈ k, c ∈ autoIncrementColumns ⟨t.name, none, rebuiltColumns t a, rebuiltConstraints t a⟩) →
    k ∉ keyColumns (emptyConstraints t a) →
    k.length = 1 ∨ (false, k) ∈ primaryKeys (rebuiltConstraints t a)
  named : ∀ k, (false, k) ∉ primaryKeys (emptyConstraints t a)
  uncarried : ∀ k ∈ keyColumns (uncarriedConstraints t a), k ∈ keyColumns (rebuiltConstraints t a) ∨
    (primaryKeys (rebuiltConstraints t a) = [] ∧ ∃ c ∈ rebuiltColumns t a,
      c.primaryKey.isSome ∧ k = [c.name]) ∨
    ∃ c ∈ autoIncrementColumns ⟨t.name, none, rebuiltColumns t a, rebuiltConstraints t a⟩, k = [c]

/-- What is not carried over stands in the rebuilt table all the same. -/
structure RebuildFollows (a : MigrationAction) : Prop where
  references : ∀ r ∈ foreignReferences (uncarriedConstraints t a),
    r ∈ foreignReferences (rebuiltConstraints t a)
  temporary : ∀ r ∈ foreignReferences (rebuiltConstraints t a), r.refTable ≠ t.name ++ "_temp"
  named : foreignReferences (emptyConstraints t a) = []
  checks : ∀ c ∈ extractCheckClauses (uncarriedConstraints t a),
    c ∈ collectAllCheckClauses t.name (rebuiltColumns t a) (rebuiltConstraints t a)
  keys : KeysFollow t a

end Condition

/-! Keys, references and checks of the statement -/

section Statement
variable {table : String} {columns : List ColumnDef} {carried : List TableConstraint}

theorem sea_column_attributes {first second : List ColumnDef}
    (same : first.map ColumnDef.stripInline = second.map ColumnDef.stripInline) :
    first.map buildSeaColumnDef = second.map buildSeaColumnDef := by
  have stripped : ∀ cols : List ColumnDef,
      cols.map buildSeaColumnDef = (cols.map ColumnDef.stripInline).map buildSeaColumnDef := by
    intro cols
    rw [List.map_map]
    rfl
  rw [stripped first, stripped second, same]

theorem enum_check_attributes {first second : List ColumnDef}
    (same : first.map ColumnDef.stripInline = second.map ColumnDef.stripInline) :
    collectSqliteEnumCheckClauses table first = collectSqliteEnumCheckClauses table second := by
  have stripped : ∀ cols : List ColumnDef, collectSqliteEnumCheckClauses table cols =
      collectSqliteEnumCheckClauses table (cols.map ColumnDef.stripInline) := by
    intro cols
    rw [collectSqliteEnumCheckClauses, collectSqliteEnumCheckClauses, List.filterMap_map]
    rfl
  rw [stripped first, stripped second, same]

theorem mem_all_check_clauses {constraints : List TableConstraint} {clause : CheckClause} :
    clause ∈ collectAllCheckClauses table columns constraints ↔
      clause ∈ collectSqliteEnumCheckClauses table columns ∨
        clause ∈ extractCheckClauses constraints := by
  unfold collectAllCheckClauses
  generalize collectSqliteEnumCheckClauses table columns = clauses
  induction extractCheckClauses constraints generalizing clauses with
  | nil => simp
  | cons first rest ih =>
    rw [List.foldl_cons, ih]
    split
    · rename_i present
      rw [List.mem_cons]
      constructor
      · intro mem
        exact mem.imp_right .inr
      · intro mem
        rcases mem with old | rfl | later
        · exact .inl old
        · exact .inl present
        · exact .inr later
    · rw [List.mem_append, List.mem_singleton, List.mem_cons, or_assoc]

theorem mem_emitted_keys {k : List String} : k ∈ emittedKeys .sqlite ⟨table, none, columns, carried⟩ ↔
    (primaryKeys carried = [] ∧ ∃ c ∈ columns, c.primaryKey.isSome ∧ k = [c.name]) ∨
    (∃ c ∈ autoIncrementColumns ⟨table, none, columns, carried⟩, k = [c]) ∨
    ∃ auto, (auto, k) ∈ primaryKeys carried ∧
      ¬ (auto = true ∧ ∀ c ∈ k, c ∈ autoIncrementColumns ⟨table, none, columns, carried⟩) := by
  rw [emittedKeys, List.mem_append, mem_key_clauses, List.mem_map, key_flags_eq]
  by_cases none_ : primaryKeys carried = []
  · have no_auto : autoIncrementColumns ⟨table, none, columns, carried⟩ = [] := by
      rw [autoIncrementColumns, (keyless ⟨table, none, columns, carried⟩ none_).2]
      simp
    simp only [none_, no_auto, ↓reduceIte, List.mem_map, List.mem_filter, List.not_mem_nil,
      false_and, exists_false, or_false, true_and]
    constructor
    · intro mem
      obtain ⟨_, ⟨c, ⟨here, flagged⟩, rfl⟩, rfl⟩ := mem
      exact ⟨c, here, flagged, rfl⟩
    · intro mem
      obtain ⟨c, here, flagged, rfl⟩ := mem
      exact ⟨c.name, ⟨c, ⟨here, flagged⟩, rfl⟩, rfl⟩
  · simp only [none_, ↓reduceIte, false_and, false_or]
    simp only [eq_comm (a := k)]

theorem mem_key_columns {constraints : List TableConstraint} {k : List String} :
    k ∈ keyColumns constraints ↔ ∃ auto strategy, .primaryKey auto k strategy ∈ constraints := by
  simp only [keyColumns, primaryKeys, List.mem_map, List.mem_filterMap]
  constructor
  · intro mem
    obtain ⟨⟨auto, _⟩, ⟨c, here, found⟩, rfl⟩ := mem
    cases c <;> simp only [reduceCtorEq, Option.some.injEq, Prod.mk.injEq] at found
    obtain ⟨rfl, rfl⟩ := found
    exact ⟨_, _, here⟩
  · intro mem
    obtain ⟨auto, strategy, here⟩ := mem
    exact ⟨(auto, k), ⟨_, here, rfl⟩, rfl⟩

theorem mem_key_columns_pair {constraints : List TableConstraint} {k : List String} :
    k ∈ keyColumns constraints ↔ ∃ auto, (auto, k) ∈ primaryKeys constraints := by
  simp [keyColumns]

theorem statement_keys (k : List String) :
    .primaryKey k ∈ ((rebuiltStatement table columns carried).retarget (table ++ "_temp")
      table).established ↔ k ∈ emittedKeys .sqlite ⟨table, none, columns, carried⟩ := by
  have clauses : (carried.flatMap (constraintIndexes .sqlite (table ++ "_temp") columns)).map
      (·.established) =
      (keyClauses .sqlite ⟨table, none, columns, carried⟩).map Established.primaryKey := by
    rw [keyClauses, primaryKeys]
    induction carried with
    | nil => rfl
    | cons c rest ih =>
      rw [List.flatMap_cons, List.map_append, ih]
      cases c with
      | primaryKey autoIncrement key strategy =>
        simp only [constraintIndexes, primaryKeyClause]
        by_cases skip : shouldSkipSqliteAutoIncrementPk .sqlite columns key autoIncrement <;>
          simp [skip, IndexCreateStatement.established]
      | _ => simp [constraintIndexes, mysqlUniqueClause]
  have flags : ((columns.map (createTableColumn .sqlite carried)).filter (·.primaryKey)).map
      (fun c => Established.primaryKey [c.name]) =
      (keyFlags .sqlite ⟨table, none, columns, carried⟩).map (fun c => .primaryKey [c]) := by
    rw [keyFlags, List.filter_map, List.map_map, List.map_map]
    rfl
  simp only [TableCreateStatement.established, TableCreateStatement.retarget, rebuiltStatement,
    buildCreateTableForBackend, flags, clauses, emittedKeys, List.mem_append, List.mem_map,
    reduceCtorEq, and_false, exists_false, or_false, Established.primaryKey.injEq]
  simp

theorem statement_references (r : ForeignReference) :
    r ∈ ((rebuiltStatement table columns carried).retarget (table ++ "_temp")
      table).foreignKeys.map (·.reference) ↔ ∃ d ∈ foreignReferences carried,
        { d with refTable := retargetName (table ++ "_temp") table d.refTable } = r := by
  rw [← List.mem_map]
  have same : ((rebuiltStatement table columns carried).retarget (table ++ "_temp")
      table).foreignKeys.map (·.reference) = (foreignReferences carried).map fun d =>
        { d with refTable := retargetName (table ++ "_temp") table d.refTable } := by
    simp only [TableCreateStatement.retarget, rebuiltStatement, buildCreateTableForBackend]
    induction carried with
    | nil => rfl
    | cons c rest ih =>
      rw [List.flatMap_cons, List.map_append, List.map_append, ih]
      cases c <;> rfl
  rw [same]

end Statement

/-! The rebuilt table and its definition -/

section Compare
variable {t : TableDef} {a : MigrationAction} {t' : TableDef}

theorem empty_no_checks : extractCheckClauses (emptyConstraints t a) = [] := by
  rw [extractCheckClauses, List.filterMap_eq_nil_iff]
  intro c gone
  cases a with
  | deleteColumn table column =>
    have dropped := (List.mem_filter.mp gone).2
    cases c <;> simp [dropColumnFromConstraint] at dropped ⊢
  | _ => simp [emptyConstraints] at gone

/-- What replay makes of the table, in terms of what the rebuild carries over. -/
structure ReplayedTable (t : TableDef) (a : MigrationAction) (t' : TableDef) : Prop where
  name : t'.name = t.name
  columns : t'.columns.map ColumnDef.stripInline = (rebuiltColumns t a).map ColumnDef.stripInline
  constraints : ∀ c, c ∈ t'.constraints ↔
    (c ∈ rebuiltConstraints t a ∧ c ∉ emptyConstraints t a) ∨ c ∈ uncarriedConstraints t a
  empty : ∀ c ∈ emptyConstraints t a, c ∈ rebuiltConstraints t a ∧ c.columns = [] ∧
    ∀ d ∈ t'.constraints, d.columns = [] → extractCheckClauses [d] ≠ []

variable (replayed : ReplayedTable t a t')
include replayed

theorem filter_map_replayed {β : Type} {f : TableConstraint → Option β}
    (none_empty : (emptyConstraints t a).filterMap f = []) (b : β) :
    b ∈ t'.constraints.filterMap f ↔ b ∈ (rebuiltConstraints t a).filterMap f ∨
      b ∈ (uncarriedConstraints t a).filterMap f := by
  have kept : ∀ c, f c = some b → c ∉ emptyConstraints t a := by
    intro c found mem
    rw [List.filterMap_eq_nil_iff.mp none_empty c mem] at found
    cases found
  simp only [List.mem_filterMap]
  constructor
  · intro mem
    obtain ⟨c, here, found⟩ := mem
    rcases (replayed.constraints c).mp here with ⟨carried, _⟩ | uncarried
    · exact .inl ⟨c, carried, found⟩
    · exact .inr ⟨c, uncarried, found⟩
  · intro mem
    rcases mem with ⟨c, carried, found⟩ | ⟨c, uncarried, found⟩
    · exact ⟨c, (replayed.constraints c).mpr (.inl ⟨carried, kept c found⟩), found⟩
    · exact ⟨c, (replayed.constraints c).mpr (.inr uncarried), found⟩

theorem key_not_empty {auto : Bool} {k : List String} {strategy : PrimaryKeyAdditionStrategy}
    (here : .primaryKey auto k strategy ∈ t'.constraints) :
    k ∉ keyColumns (emptyConstraints t a) := by
  intro mem
  obtain ⟨_, _, gone⟩ := mem_key_columns.mp mem
  obtain ⟨_, no_columns, others⟩ := replayed.empty _ gone
  exact others _ here no_columns rfl

theorem replayed_keys (k : List String) : k ∈ keyColumns t'.constraints ↔
    (k ∈ keyColumns (rebuiltConstraints t a) ∧ k ∉ keyColumns (emptyConstraints t a)) ∨
      k ∈ keyColumns (uncarriedConstraints t a) := by
  constructor
  · intro mem
    obtain ⟨auto, strategy, here⟩ := mem_key_columns.mp mem
    rcases (replayed.constraints _).mp here with ⟨carried, _⟩ | uncarried
    · exact .inl ⟨mem_key_columns.mpr ⟨auto, strategy, carried⟩, key_not_empty replayed here⟩
    · exact .inr (mem_key_columns.mpr ⟨auto, strategy, uncarried⟩)
  · intro mem
    rcases mem with ⟨carried, named⟩ | uncarried
    · obtain ⟨auto, strategy, here⟩ := mem_key_columns.mp carried
      have kept : .primaryKey auto k strategy ∉ emptyConstraints t a := fun gone =>
        named (mem_key_columns.mpr ⟨auto, strategy, gone⟩)
      exact mem_key_columns.mpr ⟨auto, strategy, (replayed.constraints _).mpr (.inl ⟨here, kept⟩)⟩
    · obtain ⟨auto, strategy, here⟩ := mem_key_columns.mp uncarried
      exact mem_key_columns.mpr ⟨auto, strategy, (replayed.constraints _).mpr (.inr here)⟩

theorem keys_follow_iff :
    (∀ k, k ∈ emittedKeys .sqlite ⟨t.name, none, rebuiltColumns t a, rebuiltConstraints t a⟩ ↔
      k ∈ keyColumns t'.constraints) ↔ KeysFollow t a := by
  have whole := replayed_keys replayed
  have in_replay : ∀ k ∈ keyColumns t'.constraints, k ∉ keyColumns (emptyConstraints t a) := by
    intro k mem
    obtain ⟨auto, strategy, here⟩ := mem_key_columns.mp mem
    exact key_not_empty replayed here
  simp only [mem_emitted_keys]
  constructor
  · intro same
    constructor
    · intro keyless c mem flagged
      have key := (same [c.name]).mp (.inl ⟨keyless, c, mem, flagged, rfl⟩)
      rcases (whole _).mp key with ⟨carried, _⟩ | uncarried
      · rw [keyColumns, keyless] at carried
        simp at carried
      · exact uncarried
    · intro c mem
      exact ((whole _).mp ((same [c]).mp (.inr (.inl ⟨c, mem, rfl⟩)))).imp_left And.left
    · intro k key auto named
      have carried : k ∈ keyColumns (rebuiltConstraints t a) := mem_key_columns_pair.mpr ⟨true, key⟩
      rcases (same k).mpr ((whole k).mpr (.inl ⟨carried, named⟩)) with
        ⟨keyless, _⟩ | ⟨c, _, rfl⟩ | ⟨plain, other, kept⟩
      · simp [keyless] at key
      · exact .inl rfl
      · cases plain with
        | false => exact .inr other
        | true => exact absurd ⟨rfl, auto⟩ kept
    · intro k gone
      obtain ⟨c, mem, found⟩ := List.mem_filterMap.mp gone
      have carried : (false, k) ∈ primaryKeys (rebuiltConstraints t a) :=
        List.mem_filterMap.mpr ⟨c, (replayed.empty c mem).1, found⟩
      have key := (same k).mp (.inr (.inr ⟨false, carried, by simp⟩))
      exact in_replay k key (mem_key_columns_pair.mpr ⟨false, gone⟩)
    · intro k mem
      rcases (same k).mpr ((whole k).mpr (.inr mem)) with flagged | single | ⟨auto, key, _⟩
      · exact .inr (.inl flagged)
      · exact .inr (.inr single)
      · exact .inl (mem_key_columns_pair.mpr ⟨auto, key⟩)
  · intro follows k
    have emitted : k ∈ keyColumns (rebuiltConstraints t a) →
        k ∉ keyColumns (emptyConstraints t a) →
        (∃ c ∈ autoIncrementColumns ⟨t.name, none, rebuiltColumns t a, rebuiltConstraints t a⟩,
          k = [c]) ∨ ∃ auto, (auto, k) ∈ primaryKeys (rebuiltConstraints t a) ∧ ¬ (auto = true ∧
            ∀ c ∈ k, c ∈ autoIncrementColumns
              ⟨t.name, none, rebuiltColumns t a, rebuiltConstraints t a⟩) := by
      intro carried named
      obtain ⟨auto, key⟩ := mem_key_columns_pair.mp carried
      by_cases skipped : auto = true ∧ ∀ c ∈ k, c ∈ autoIncrementColumns
          ⟨t.name, none, rebuiltColumns t a, rebuiltConstraints t a⟩
      · obtain ⟨rfl, all⟩ := skipped
        rcases follows.whole k key all named with one | plain
        · obtain ⟨c, rfl⟩ := List.length_eq_one_iff.mp one
          exact .inl ⟨c, all c List.mem_cons_self, rfl⟩
        · exact .inr ⟨false, plain, by simp⟩
      · exact .inr ⟨auto, key, skipped⟩
    have no_columns : ∀ k ∈ keyColumns (emptyConstraints t a), k = [] := by
      intro k mem
      obtain ⟨_, _, gone⟩ := mem_key_columns.mp mem
      exact (replayed.empty _ gone).2.1
    constructor
    · intro mem
      rcases mem with ⟨keyless, c, here, flagged, rfl⟩ | ⟨c, here, rfl⟩ | ⟨auto, key, kept⟩
      · exact (whole _).mpr (.inr (follows.stray keyless c here flagged))
      · rcases follows.single c here with carried | uncarried
        · exact (whole _).mpr (.inl ⟨carried, fun gone => by simpa using no_columns _ gone⟩)
        · exact (whole _).mpr (.inr uncarried)
      · refine (whole _).mpr (.inl ⟨mem_key_columns_pair.mpr ⟨auto, key⟩, fun gone => ?_⟩)
        obtain rfl := no_columns k gone
        -- a clause on no column is written for a plain key only
        cases auto with
        | true => exact kept ⟨rfl, by simp⟩
        | false =>
          obtain ⟨c, mem, found⟩ := List.mem_filterMap.mp key
          by_cases own : c ∈ emptyConstraints t a
          · exact follows.named [] (List.mem_filterMap.mpr ⟨c, own, found⟩)
          · have here := (replayed.constraints c).mpr (.inl ⟨mem, own⟩)
            cases c <;> simp only [reduceCtorEq, Option.some.injEq, Prod.mk.injEq] at found
            obtain ⟨rfl, rfl⟩ := found
            exact key_not_empty replayed here gone
    · intro mem
      have named := in_replay k mem
      rcases (whole k).mp mem with ⟨carried, _⟩ | uncarried
      · exact .inr (emitted carried named)
      · rcases follows.uncarried k uncarried with carried | flagged | single
        · exact .inr (emitted carried named)
        · exact .inl flagged
        · exact .inr (.inl single)

theorem references_follow_iff :
    (∀ r, (∃ d ∈ foreignReferences (rebuiltConstraints t a),
      { d with refTable := retargetName (t.name ++ "_temp") t.name d.refTable } = r) ↔
        r ∈ foreignReferences t'.constraints) ↔
    (∀ r ∈ foreignReferences (uncarriedConstraints t a),
      r ∈ foreignReferences (rebuiltConstraints t a)) ∧
    (∀ r ∈ foreignReferences (rebuiltConstraints t a), r.refTable ≠ t.name ++ "_temp") ∧
    foreignReferences (emptyConstraints t a) = [] := by
  have whole : foreignReferences (emptyConstraints t a) = [] → ∀ r, _ :=
    fun named => filter_map_replayed replayed named
  have unmoved : ∀ d : ForeignReference, d.refTable ≠ t.name ++ "_temp" →
      { d with refTable := retargetName (t.name ++ "_temp") t.name d.refTable } = d := by
    intro d other
    rw [retargetName, if_neg other]
  constructor
  · intro same
    have named : foreignReferences (emptyConstraints t a) = [] := by
      rw [foreignReferences, List.filterMap_eq_nil_iff]
      intro c gone
      obtain ⟨carried, no_columns, others⟩ := replayed.empty c gone
      by_contra refers
      obtain ⟨r, found⟩ := Option.ne_none_iff_exists'.mp refers
      have here := (same _).mp ⟨r, List.mem_filterMap.mpr ⟨c, carried, found⟩, rfl⟩
      obtain ⟨d, mem, other⟩ := List.mem_filterMap.mp here
      have own : d.columns = [] ∧ extractCheckClauses [d] = [] := by
        cases c <;> simp only [foreignReference, reduceCtorEq, Option.some.injEq] at found
        cases d <;> simp only [foreignReference, reduceCtorEq, Option.some.injEq] at other
        subst found
        exact ⟨(congrArg ForeignReference.columns other).trans no_columns, rfl⟩
      exact others d mem own.1 own.2
    have whole := whole named
    have temporary : ∀ r ∈ foreignReferences (rebuiltConstraints t a),
        r.refTable ≠ t.name ++ "_temp" := by
      intro r mem refers
      obtain ⟨d, _, moved⟩ := (same r).mpr ((whole r).mpr (.inl mem))
      rw [← moved] at refers
      simp only [retargetName] at refers
      split at refers
      · exact temporary_apart t.name refers
      · contradiction
    refine ⟨?_, temporary, named⟩
    intro r mem
    obtain ⟨d, here, rfl⟩ := (same r).mpr ((whole r).mpr (.inr mem))
    rw [unmoved d (temporary d here)]
    exact here
  · intro follows r
    obtain ⟨kept, temporary, named⟩ := follows
    have whole := whole named
    constructor
    · intro mem
      obtain ⟨d, here, rfl⟩ := mem
      rw [unmoved d (temporary d here)]
      exact (whole d).mpr (.inl here)
    · intro mem
      have here : r ∈ foreignReferences (rebuiltConstraints t a) := by
        rcases (whole r).mp mem with carried | uncarried
        · exact carried
        · exact kept r uncarried
      exact ⟨r, here, unmoved r (temporary r here)⟩

theorem checks_follow_iff :
    (∀ c, c ∈ collectAllCheckClauses t.name (rebuiltColumns t a) (rebuiltConstraints t a) ↔
      c ∈ collectAllCheckClauses t'.name t'.columns t'.constraints) ↔
    ∀ c ∈ extractCheckClauses (uncarriedConstraints t a),
      c ∈ collectAllCheckClauses t.name (rebuiltColumns t a) (rebuiltConstraints t a) := by
  have whole : ∀ c, c ∈ collectAllCheckClauses t'.name t'.columns t'.constraints ↔
      c ∈ collectAllCheckClauses t.name (rebuiltColumns t a) (rebuiltConstraints t a) ∨
        c ∈ extractCheckClauses (uncarriedConstraints t a) := by
    intro c
    rw [mem_all_check_clauses, mem_all_check_clauses, replayed.name,
      enum_check_attributes replayed.columns, or_assoc]
    exact or_congr_right (filter_map_replayed replayed empty_no_checks c)
  simp only [whole]
  constructor
  · intro same c mem
    exact (same c).mpr (.inr mem)
  · intro kept c
    exact ⟨.inl, fun mem => mem.elim id (kept c)⟩

theorem same_table_iff :
    SameTable ((rebuiltStatement t.name (rebuiltColumns t a) (rebuiltConstraints t a)).retarget
      (t.name ++ "_temp") t.name) t' ↔ RebuildFollows t a := by
  have columns : ((rebuiltStatement t.name (rebuiltColumns t a) (rebuiltConstraints t a)).retarget
      (t.name ++ "_temp") t.name).columns.map (·.unflagged) =
        t'.columns.map buildSeaColumnDef := by
    rw [sea_column_attributes replayed.columns]
    simp only [TableCreateStatement.retarget, rebuiltStatement, buildCreateTableForBackend,
      List.map_map]
    rfl
  constructor
  · intro same
    have references := (references_follow_iff replayed).mp fun r =>
      (statement_references r).symm.trans (same.references r)
    exact ⟨references.1, references.2.1, references.2.2, (checks_follow_iff replayed).mp same.checks,
      (keys_follow_iff replayed).mp fun k => (statement_keys k).symm.trans (same.keys k)⟩
  · intro follows
    have references := (references_follow_iff replayed).mpr
      ⟨follows.references, follows.temporary, follows.named⟩
    exact ⟨columns,
      fun k => (statement_keys k).trans ((keys_follow_iff replayed).mpr follows.keys k),
      fun r => (statement_references r).trans (references r),
      (checks_follow_iff replayed).mpr follows.checks⟩

end Compare

/-! Replay of the action -/

theorem merged_mem (constraints : List TableConstraint) (constraint c : TableConstraint) :
    c ∈ mergeConstraint constraints constraint ↔
      c = constraint ∨ c ∈ constraints ∧ constraintsOverlap c constraint = false := by
  unfold mergeConstraint
  split
  · have before : ∀ c ∈ constraints.takeWhile (!constraintsOverlap · constraint),
        constraintsOverlap c constraint = false := by
      intro c mem
      simpa using List.mem_takeWhile_imp mem
    have whole := List.takeWhile_append_dropWhile (p := (!constraintsOverlap · constraint))
      (l := constraints)
    constructor
    · intro mem
      rcases List.mem_append.mp mem with front | later
      · rcases List.mem_append.mp front with early | own
        · exact .inr ⟨List.takeWhile_subset _ early, before c early⟩
        · exact .inl (List.mem_singleton.mp own)
      · obtain ⟨here, other⟩ := List.mem_filter.mp later
        exact .inr ⟨List.dropWhile_subset _ here, by simpa using other⟩
    · intro mem
      rcases mem with rfl | ⟨here, other⟩
      · simp
      · rw [← whole, List.mem_append] at here
        rcases here with early | later
        · exact List.mem_append_left _ (List.mem_append_left _ early)
        · exact List.mem_append_right _ (List.mem_filter.mpr ⟨later, by simpa using other⟩)
  · rename_i alone
    have apart : ∀ c ∈ constraints, constraintsOverlap c constraint = false := by
      simpa using alone
    rw [List.mem_append, List.mem_singleton, or_comm]
    exact or_congr_right ⟨fun mem => ⟨mem, apart c mem⟩, And.left⟩

theorem same_constraint_self {c : TableConstraint} (other : ∀ name columns, c ≠ .index name columns) :
    sameConstraint c c = true := by
  cases c with
  | unique name columns strategy => cases name <;> simp [sameConstraint, sameNamedOrColumnConstraint]
  | foreignKey name columns => cases name <;> simp [sameConstraint, sameNamedOrColumnConstraint]
  | index name columns => exact absurd rfl (other name columns)
  | _ => simp [sameConstraint]

theorem kept_drops {column : String} {c : TableConstraint} (kept : keptWithoutColumn column c = true) :
    dropColumnFromConstraint column c = some c ∨
      dropColumnFromConstraint column c = none ∧ c.columns = [] := by
  have others : ∀ columns : List String, column ∉ columns →
      columns.filter (· ≠ column) = columns := by
    intro columns absent
    rw [List.filter_eq_self]
    intro name mem
    exact decide_eq_true fun same => absent (same ▸ mem)
  cases c with
  | check name expr strategy => exact .inl rfl
  | primaryKey | unique | foreignKey | index =>
    have absent := of_decide_eq_true kept
    rw [TableConstraint.columns] at absent
    simp only [dropColumnFromConstraint, others _ absent, TableConstraint.columns]
    split <;> simp_all

theorem dropped_named {column : String} {c d : TableConstraint}
    (dropped : dropColumnFromConstraint column c = some d) (no_columns : d.columns = []) :
    extractCheckClauses [d] ≠ [] := by
  cases c <;> simp only [dropColumnFromConstraint] at dropped
  case check => obtain rfl := Option.some.inj dropped; simp [extractCheckClauses]
  all_goals
    split at dropped
    · cases dropped
    · obtain rfl := Option.some.inj dropped
      contradiction

theorem dropped_constraints (constraints : List TableConstraint) (column : String)
    (c : TableConstraint) : c ∈ dropColumnFromConstraints constraints column ↔
      (c ∈ constraints.filter (keptWithoutColumn column) ∧
        ¬ (c ∈ constraints ∧ keptWithoutColumn column c ∧ dropColumnFromConstraint column c = none)) ∨
      c ∈ (constraints.filter (!keptWithoutColumn column ·)).filterMap
        (dropColumnFromConstraint column) := by
  simp only [dropColumnFromConstraints, List.mem_filterMap, List.mem_filter, Bool.not_eq_true']
  constructor
  · intro mem
    obtain ⟨d, here, dropped⟩ := mem
    cases kept : keptWithoutColumn column d with
    | true =>
      rcases kept_drops kept with same | ⟨gone, _⟩
      · obtain rfl : d = c := Option.some.inj (same.symm.trans dropped)
        exact .inl ⟨⟨here, kept⟩, by simp [dropped]⟩
      · rw [gone] at dropped
        cases dropped
    | false => exact .inr ⟨d, ⟨here, kept⟩, dropped⟩
  · intro mem
    rcases mem with ⟨⟨here, kept⟩, stays⟩ | ⟨d, ⟨here, _⟩, dropped⟩
    · rcases kept_drops kept with same | ⟨gone, _⟩
      · exact ⟨c, here, same⟩
      · exact absurd ⟨here, kept, gone⟩ stays
    · exact ⟨d, here, dropped⟩

theorem replaced_constraints {old new : TableConstraint} {constraints : List TableConstraint}
    (present : old ∈ constraints) (c : TableConstraint) :
    c ∈ replaceFirst old new constraints ↔
      c ∈ constraints.map (fun d => if d = old then new else d) ∨
        c ∈ (constraints.erase old).filter (· = old) := by
  have mapped : c ∈ constraints.map (fun d => if d = old then new else d) ↔
      c = new ∨ (c ∈ constraints ∧ c ≠ old) := by
    rw [List.mem_map]
    constructor
    · intro mem
      obtain ⟨d, here, rfl⟩ := mem
      by_cases same : d = old
      · exact .inl (if_pos same)
      · rw [if_neg same]
        exact .inr ⟨here, same⟩
    · intro mem
      rcases mem with rfl | ⟨here, other⟩
      · exact ⟨old, present, if_pos rfl⟩
      · exact ⟨c, here, if_neg other⟩
  rw [replace_first_mem present, mapped, List.mem_filter, decide_eq_true_eq, or_assoc]
  refine or_congr_right ?_
  by_cases same : c = old
  · simp [same]
  · simp [same, List.mem_erase_of_ne same]

theorem replayed_table {t : TableDef} {a : MigrationAction} (may : mayRebuild a = true)
    (ok : (tableEdit a t).error = none) : ReplayedTable t a (tableEdit a t).state := by
  have onto : ∀ table column (f : ColumnDef → ColumnDef),
      (onColumn table column f t).error = none →
      (onColumn table column f t).state = { t with columns := mapFirstColumn column f t.columns } := by
    intro table column f ok
    unfold onColumn at ok ⊢
    split at ok
    · rename_i present
      rw [if_pos present]
      rfl
    · cases ok
  have named := table_edit_name ok
  cases a with
  | addColumn table column fillWith =>
    have fresh : column.name ∉ t.columnNames := by
      intro present
      simp [tableEdit, add_column_present present, Outcome.fail] at ok
    have accepted : Normalizable (t.columns ++ [column]) := by
      by_contra refused
      exact (add_column_refused table fresh refused).2 ok
    rw [tableEdit, add_column_to fresh accepted]
    refine ⟨rfl, rfl, ?_, by simp [emptyConstraints]⟩
    intro c
    simp only [Outcome.ok, rebuiltConstraints, uncarriedConstraints, emptyConstraints,
      List.mem_filter, decide_eq_true_eq, List.not_mem_nil, not_false_eq_true, and_true]
    constructor
    · intro mem
      by_cases old : c ∈ t.constraints
      · exact .inl old
      · exact .inr ⟨mem, old⟩
    · intro mem
      rcases mem with old | ⟨new, _⟩
      · exact AppendMissing.mem_append_missing_left old
      · exact new
  | deleteColumn table column =>
    simp only [tableEdit, deleteColumnFrom] at ok ⊢
    split at ok
    · cases ok
    · rename_i present
      rw [if_neg present]
      refine ⟨rfl, rfl, ?_, ?_⟩
      · intro c
        simp only [Outcome.ok, rebuiltConstraints, uncarriedConstraints, emptyConstraints]
        rw [dropped_constraints]
        simp [List.mem_filter]
      · intro c gone
        obtain ⟨here, stays⟩ := List.mem_filter.mp gone
        have stays := of_decide_eq_true stays
        refine ⟨List.mem_filter.mpr ⟨here, stays.1⟩, ?_, ?_⟩
        · rcases kept_drops stays.1 with same | ⟨_, no_columns⟩
          · rw [stays.2] at same
            cases same
          · exact no_columns
        · intro d mem no_columns
          obtain ⟨e, _, dropped⟩ := List.mem_filterMap.mp mem
          exact dropped_named dropped no_columns
  | modifyColumnType table column newType fillWith narrowing timezone =>
    rw [tableEdit, onto _ _ _ ok]
    exact ⟨rfl, rfl, by simp [rebuiltConstraints, uncarriedConstraints, emptyConstraints],
      by simp [emptyConstraints]⟩
  | modifyColumnNullable table column nullable fillWith deleteNullRows =>
    rw [tableEdit, onto _ _ _ ok]
    exact ⟨rfl, rfl, by simp [rebuiltConstraints, uncarriedConstraints, emptyConstraints],
      by simp [emptyConstraints]⟩
  | modifyColumnDefault table column newDefault backfill =>
    rw [tableEdit, onto _ _ _ ok]
    exact ⟨rfl, rfl, by simp [rebuiltConstraints, uncarriedConstraints, emptyConstraints],
      by simp [emptyConstraints]⟩
  | addConstraint table constraint =>
    have columns : (tableEdit (.addConstraint table constraint) t).state.columns = t.columns := by
      simp only [tableEdit, addConstraintTo, Outcome.ok]
      split <;> rfl
    refine ⟨named, by rw [columns]; rfl, ?_, by simp [emptyConstraints]⟩
    intro c
    have added : c ∈ (tableEdit (.addConstraint table constraint) t).state.constraints ↔
        c ∈ t.constraints ∨ c = constraint := by
      simp only [tableEdit, addConstraintTo, Outcome.ok]
      split
      · rename_i present
        exact ⟨.inl, fun mem => mem.elim id fun same => same ▸ present⟩
      · rw [List.mem_append, List.mem_singleton]
    simp only [added, rebuiltConstraints, uncarriedConstraints, emptyConstraints, merged_mem,
      List.mem_filter, decide_eq_true_eq, List.not_mem_nil, not_false_eq_true, and_true]
    by_cases same : c = constraint
    · simp [same]
    · cases constraintsOverlap c constraint <;> simp [same]
  | removeConstraint table constraint =>
    refine ⟨rfl, cleared_attributes table constraint t.columns, ?_, by simp [emptyConstraints]⟩
    intro c
    have other : ∀ name columns, constraint ≠ .index name columns := by
      intro name columns same
      rw [same] at may
      cases may
    simp only [tableEdit, removeConstraintFrom, Outcome.ok, rebuiltConstraints,
      uncarriedConstraints, emptyConstraints, List.mem_filter, decide_eq_true_eq,
      List.not_mem_nil, not_false_eq_true, and_true, Bool.not_eq_true', ne_eq]
    by_cases same : c = constraint
    · subst same
      simp [same_constraint_self other]
    · cases sameConstraint c constraint <;> simp [same]
  | replaceConstraint table old new =>
    simp only [tableEdit, replaceConstraintIn] at ok ⊢
    split at ok
    · rename_i present
      rw [if_pos present]
      refine ⟨rfl, cleared_attributes table old t.columns, ?_, by simp [emptyConstraints]⟩
      intro c
      simpa [Outcome.ok, rebuiltConstraints, uncarriedConstraints, emptyConstraints] using
        replaced_constraints present c
    · cases ok
  | _ => cases may

theorem edit_of_rebuild {a : MigrationAction} (may : mayRebuild a = true) : isEdit a = true := by
  cases a <;> first | rfl | cases may

/-- The rebuilt table is the table of the replayed schema exactly on this condition. -/
theorem rebuild_refines_replay_iff {a : MigrationAction} {schema s' : Schema}
    {pending : List TableConstraint} {queries : List BuiltQuery} {t t' : TableDef}
    (built : buildActionQueriesWithPending .sqlite a schema pending = .ok queries)
    (rebuilt : Rebuilds queries) (here : tableAt schema (actionTable a) = some t)
    (applied : applyAction schema a = .ok s') (there : tableAt s' (actionTable a) = some t') :
    (∀ db, (db (actionTable a)).isSome → db (actionTable a ++ "_temp") = none →
      (runSteps runOnTables db queries).isSome) ∧
    (LeavesTable (actionTable a) queries t' ↔ RebuildFollows t a) := by
  obtain ⟨may, shape⟩ := built_rebuild here built rebuilt
  have named : t.name = actionTable a := (table_at_name here).2
  rw [edit_applies (edit_of_rebuild may)] at applied
  have ok : (tableEdit a t).error = none := by
    rw [← on_table_error here, applied]
    rfl
  have left : (tableEdit a t).state = t' := by
    have at_table := on_table_at here (table_edit_name ok ▸ named)
    rw [applied] at at_table
    have found := congrFun at_table (actionTable a)
    rw [Function.update_self] at found
    exact Option.some.inj (found.symm.trans there)
  have replayed := replayed_table may ok
  rw [left] at replayed
  refine ⟨fun db taken free => rebuild_runs shape db taken free, ?_⟩
  rw [← named] at shape ⊢
  rw [← same_table_iff replayed]
  constructor
  · intro leaves
    obtain ⟨db', ran⟩ := Option.isSome_iff_exists.mp (rebuild_runs shape
      (Function.update (fun _ => none) t.name (some ⟨t.name, [], [], [], []⟩)) (by simp)
      (by simp [(temporary_apart t.name).symm]))
    obtain ⟨stands, found, same⟩ := leaves _ _ ran
    rw [rebuild_leaves shape ran] at found
    rw [Option.some.inj found]
    exact same
  · intro same db db' ran
    exact ⟨_, rebuild_leaves shape ran, same⟩

/-! A key declared at its column -/

def accountTable (primaryKey : Option PrimaryKeySyntax) (constraints : List TableConstraint) :
    TableDef :=
  ⟨"account", none, [{ ColumnDef.new "id" (.simple .integer) false with primaryKey }], constraints⟩

def accountKey : TableConstraint := .primaryKey false ["id"] .default

def dropKey : MigrationAction := .removeConstraint "account" accountKey

def keyRemoval (primaryKey : Option PrimaryKeySyntax) : List BuiltQuery :=
  buildSqliteTableRebuild "account" (accountTable primaryKey []).columns []
    (accountTable primaryKey []).columns [accountKey] []

theorem key_removal_rebuilds (primaryKey : Option PrimaryKeySyntax) :
    Rebuilds (keyRemoval primaryKey) := by
  refine ⟨rebuiltStatement "account" (accountTable primaryKey []).columns [], "account", ?_, ?_⟩
  · exact List.mem_cons_self
  · simp [keyRemoval, buildSqliteTableRebuild, rebuiltStatement, buildCreateTableForBackend]

theorem removed_key_leaves :
    (∀ db, (db (actionTable dropKey)).isSome → db (actionTable dropKey ++ "_temp") = none →
      (runSteps runOnTables db (keyRemoval none)).isSome) ∧
    (LeavesTable (actionTable dropKey) (keyRemoval none) (accountTable none []) ↔
      RebuildFollows (accountTable none [accountKey]) dropKey) := by
  have built : buildActionQueriesWithPending .sqlite dropKey [accountTable none [accountKey]] [] =
      .ok (keyRemoval none) := rfl
  have applied : applyAction [accountTable none [accountKey]] dropKey =
      .ok [accountTable none []] := rfl
  exact rebuild_refines_replay_iff built (key_removal_rebuilds none) rfl applied rfl

/-- The rebuild flags the column that still declares the key. -/
theorem removed_key_stays :
    ¬ ∀ a schema pending queries s' t',
      buildActionQueriesWithPending .sqlite a schema pending = .ok queries → Rebuilds queries →
      applyAction schema a = .ok s' → tableAt s' (actionTable a) = some t' →
      LeavesTable (actionTable a) queries t' := by
  intro refines
  have leaves := refines dropKey
    [accountTable (some (.bool true)) [accountKey]] [] (keyRemoval (some (.bool true)))
    [accountTable none []] (accountTable none []) rfl (key_removal_rebuilds _) rfl rfl
  have shape : IsRebuild "account" (accountTable (some (.bool true)) []).columns []
      (keyRemoval (some (.bool true))) := by
    have rebuild := table_rebuild [] "account" (accountTable (some (.bool true)) []).columns
      (accountTable (some (.bool true)) []).columns [] [accountKey] [] [] (by simp) (by simp)
    exact rebuild
  obtain ⟨db', ran⟩ := Option.isSome_iff_exists.mp (rebuild_runs shape
    (fun name => if name = "account" then some ⟨"account", [], [], [], []⟩ else none) rfl rfl)
  obtain ⟨stands, found, same⟩ := leaves _ _ ran
  obtain rfl := Option.some.inj ((rebuild_leaves shape ran).symm.trans found)
  have key := (same.keys ["id"]).mp (by decide)
  revert key
  decide

end Vespertide
