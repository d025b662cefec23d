import Vespertide.Normalize
import Vespertide.Sql

/-!
The cleanup of duplicate rows ahead of a new unique constraint. Of every group
of the unique columns it keeps the row of least or greatest primary key, and a
group of rows with a null in the key is a group as any other.
-/
namespace Vespertide
open SqlRows

def tablePrimaryKey (constraints : List TableConstraint) : Option (List String) :=
  constraints.findSome? fun c =>
    match c with
    | .primaryKey _ columns _ => some columns
    | _ => none

/-- Any inline declaration counts here, a negative one as well. -/
def singleKeyColumn (tableDef : TableDef) : Option String :=
  match tablePrimaryKey tableDef.constraints with
  | some [column] => some column
  | some _ => none
  | none =>
      match tableDef.columns.filter (·.primaryKey.isSome) with
      | [first] => some first.name
      | _ => none

def tryResolveSinglePkColumn (table : String) (currentSchema : List TableDef)
    (cols : List String) : Option String := do
  let tableDef ← currentSchema.find? (·.name = table)
  let pkColumn ← singleKeyColumn tableDef
  if pkColumn ∈ cols then none else some pkColumn

def keepAggregate : KeepPolicy → Aggregate
  | .first => .min
  | .last => .max

/-- `DELETE FROM t WHERE pk NOT IN (SELECT MIN(pk) FROM t GROUP BY …)` -/
def deleteDuplicates (table pkColumn : String) (columns : List String) (keep : KeepPolicy) :
    Statement String :=
  .delete table (.notInGrouped ⟨none, pkColumn⟩ (keepAggregate keep) pkColumn table columns)

def buildPreCleanupDelete (table : String) (columns : List String)
    (strategy : UniqueConstraintStrategy) (currentSchema : List TableDef) :
    List (Statement String) :=
  let keep := match strategy with | .deleteDuplicates keep => keep
  match tryResolveSinglePkColumn table currentSchema columns with
  | none => []
  | some pkColumn => [deleteDuplicates table pkColumn columns keep]

set_option maxRecDepth 20000 in
example : renderStatement .mySql (deleteDuplicates "user" "id" ["email", "org"] .first) =
    "DELETE FROM `user` WHERE `id` NOT IN (SELECT MIN(`id`) FROM `user` GROUP BY `email`, `org`)" := by
  decide

def SinglePrimaryKey (t : TableDef) (pk : String) : Prop :=
  tablePrimaryKey (addPrimaryKeyConstraint t.columns t.constraints) = some [pk]

instance (t : TableDef) (pk : String) : Decidable (SinglePrimaryKey t pk) :=
  inferInstanceAs (Decidable (_ = _))

/-- A column declares no key, and no table-level key makes the declarations moot. -/
def DeclinedInlineKey (t : TableDef) : Prop :=
  tablePrimaryKey t.constraints = none ∧ ∃ c ∈ t.columns, c.primaryKey = some (.bool false)

instance (t : TableDef) : Decidable (DeclinedInlineKey t) :=
  inferInstanceAs (Decidable (_ ∧ _))

/-! Which key the cleanup finds -/

theorem has_primary_key_constraint (constraints : List TableConstraint) :
    hasPrimaryKeyConstraint constraints = true ↔ tablePrimaryKey constraints ≠ none :=
  has_primary_key_iff (fun c => by cases c <;> simp [TableConstraint.isPrimaryKey]) constraints

theorem table_primary_key_append {constraints added : List TableConstraint}
    (none_yet : tablePrimaryKey constraints = none) :
    tablePrimaryKey (constraints ++ added) = tablePrimaryKey added := by
  rw [tablePrimaryKey, List.findSome?_append]
  simp only [tablePrimaryKey] at none_yet
  rw [none_yet]
  rfl

theorem single_key_column {t : TableDef} {pk : String} (single : SinglePrimaryKey t pk) :
    singleKeyColumn t = if DeclinedInlineKey t then none else some pk := by
  cases level : tablePrimaryKey t.constraints with
  | some columns =>
    have present := (has_primary_key_constraint t.constraints).mpr (by simp [level])
    simp only [SinglePrimaryKey, addPrimaryKeyConstraint, present, or_true, ↓reduceIte, level,
      Option.some.injEq] at single
    simp [singleKeyColumn, DeclinedInlineKey, level, single]
  | none =>
    have absent : ¬ hasPrimaryKeyConstraint t.constraints = true := by
      rw [has_primary_key_constraint]
      simp [level]
    have declared : (collectPrimaryKeyColumns t.columns).1 = [pk] := by
      by_cases empty : (collectPrimaryKeyColumns t.columns).1 = []
      · simp [SinglePrimaryKey, addPrimaryKeyConstraint, empty, level] at single
      · simp only [SinglePrimaryKey, addPrimaryKeyConstraint, empty, absent, or_self, ↓reduceIte,
          Bool.false_eq_true] at single
        rw [table_primary_key_append level] at single
        simpa [tablePrimaryKey] using single
    rw [collect_primary_key_columns] at declared
    obtain ⟨key, declaring, rfl⟩ : ∃ key, t.columns.filter (·.declaresKey) = [key] ∧
        key.name = pk := by simpa [List.map_eq_singleton_iff] using declared
    by_cases declined : ∃ c ∈ t.columns, c.primaryKey = some (.bool false)
    · obtain ⟨c, mem, negative⟩ := declined
      have key_mem : key ∈ t.columns.filter (·.declaresKey) := by simp [declaring]
      obtain ⟨key_mem, declares⟩ := List.mem_filter.mp key_mem
      have distinct : c ≠ key := by
        rintro rfl
        simp [ColumnDef.declaresKey, negative] at declares
      have two : ∀ first, t.columns.filter (·.primaryKey.isSome) ≠ [first] := by
        intro first only
        have here : ∀ d ∈ t.columns, d.primaryKey.isSome → d = first := by
          intro d hd some_
          have : d ∈ t.columns.filter (·.primaryKey.isSome) := List.mem_filter.mpr ⟨hd, some_⟩
          simpa [only] using this
        have key_some : key.primaryKey.isSome := by
          cases h : key.primaryKey <;> simp [ColumnDef.declaresKey, h] at declares ⊢
        exact distinct ((here c mem (by simp [negative])).trans (here key key_mem key_some).symm)
      have moot : DeclinedInlineKey t := ⟨level, c, mem, negative⟩
      simp only [singleKeyColumn, level, moot, ↓reduceIte]
    · have same : t.columns.filter (·.primaryKey.isSome) = t.columns.filter (·.declaresKey) := by
        refine List.filter_congr fun c mem => ?_
        have positive : c.primaryKey ≠ some (.bool false) := fun h => declined ⟨c, mem, h⟩
        rcases h : c.primaryKey with _ | (_ | _) | _ <;> simp_all [ColumnDef.declaresKey]
      simp [singleKeyColumn, level, DeclinedInlineKey, declined, same, declaring]

theorem resolve_single_pk {table pk : String} {currentSchema : List TableDef} {t : TableDef}
    {cols : List String} (found : currentSchema.find? (·.name = table) = some t)
    (single : SinglePrimaryKey t pk) (outside : pk ∉ cols) :
    tryResolveSinglePkColumn table currentSchema cols =
      if DeclinedInlineKey t then none else some pk := by
  simp only [tryResolveSinglePkColumn, found, single_key_column single, Option.bind_eq_bind,
    Option.bind_some]
  split <;> simp [outside]

/-! Exactness -/

section Exactness
variable {V : Type} [LinearOrder V]

def runAll (db : Tables String V) (statements : List (Statement String)) : Tables String V :=
  statements.foldl (fun db s => s.run db) db

/-- A key without nulls: only such keys can be duplicates of each other. -/
def FullKey (columns : List String) (row : Row String V) : Prop := ∀ c ∈ columns, row c ≠ none

def SameKey (columns : List String) (a b : Row String V) : Prop :=
  groupKey columns a = groupKey columns b

omit [LinearOrder V] in
theorem full_key_congr {columns : List String} {a b : Row String V}
    (same : SameKey columns a b) : FullKey columns a ↔ FullKey columns b := by
  have pointwise := List.map_inj_left.mp same
  exact forall₂_congr fun c mem => by rw [pointwise c mem]

/-- The rows `after` the cleanup of the rows `before`, of primary key `pk`. -/
structure CleanupKeepsOne (pk : String) (columns : List String) (keep : KeepPolicy)
    (before after : List (Row String V)) : Prop where
  subset : ∀ r ∈ after, r ∈ before
  removed : ∀ r ∈ before, r ∉ after →
    FullKey columns r ∧ ∃ kept ∈ after, SameKey columns r kept
  keeps : ∀ r ∈ before, FullKey columns r →
    (r ∈ after ↔ ∀ r' ∈ before, SameKey columns r' r →
      (keepAggregate keep).prefers (r pk) (r' pk))
  unique : ∀ r ∈ after, ∀ r' ∈ after, FullKey columns r → SameKey columns r r' → r = r'

/-- No two rows agree on a key with a null in it; where no statement is
    emitted, no two rows agree on a key without one. -/
def DuplicatesSafe (t : TableDef) (columns : List String) (rows : List (Row String V)) : Prop :=
  ∀ r ∈ rows, ∀ r' ∈ rows, SameKey columns r r' →
    (if DeclinedInlineKey t then FullKey columns r else ¬ FullKey columns r) → r = r'

variable {table pk : String} {columns : List String} {keep : KeepPolicy}
  {db : Tables String V}
  (identified : ∀ r ∈ db table, ∀ r' ∈ db table, r pk = r' pk → r = r')
  (filled : ∀ r ∈ db table, r pk ≠ none)

include identified filled in
theorem delete_duplicates_keeps {r : Row String V} (mem : r ∈ db table) :
    r ∈ runAll db [deleteDuplicates table pk columns keep] table ↔
      ∀ r' ∈ db table, SameKey columns r' r → (keepAggregate keep).prefers (r pk) (r' pk) := by
  have affected : (Condition.notInGrouped ⟨none, pk⟩ (keepAggregate keep) pk table columns).eval
      db [(table, r)] = .yes ↔ ∃ r' ∈ db table, groupKey columns r' = groupKey columns r ∧
        ¬ (keepAggregate keep).prefers (r pk) (r' pk) := by
    rw [← not_in_grouped_iff identified filled mem]
    simp [Condition.eval, resolve]
  have kept : r ∈ runAll db [deleteDuplicates table pk columns keep] table ↔
      (deleteDuplicates table pk columns keep).effect db r = some r := by
    simp only [runAll, List.foldl_cons, List.foldl_nil, Statement.run, deleteDuplicates,
      Statement.table, Function.update_self, List.mem_filterMap]
    constructor
    · rintro ⟨r', _, same⟩
      have := same
      simp only [Statement.effect] at this
      split at this
      · simp at this
      · obtain rfl := Option.some.inj this
        exact same
    · exact fun same => ⟨r, mem, same⟩
  rw [kept, deleteDuplicates, effect_delete_kept, ne_eq, affected]
  simp [SameKey]

theorem delete_duplicates_subset {r : Row String V}
    (mem : r ∈ runAll db [deleteDuplicates table pk columns keep] table) : r ∈ db table := by
  simp only [runAll, List.foldl_cons, List.foldl_nil, Statement.run, deleteDuplicates,
    Statement.table, Function.update_self, List.mem_filterMap, Statement.effect] at mem
  obtain ⟨r', mem', same⟩ := mem
  split at same
  · simp at same
  · exact Option.some.inj same ▸ mem'

include identified filled in
theorem preferred_unique {agg : Aggregate} {r r' : Row String V} (mem : r ∈ db table)
    (mem' : r' ∈ db table) (ahead : agg.prefers (r pk) (r' pk))
    (behind : agg.prefers (r' pk) (r pk)) : r = r' := by
  obtain ⟨x, hx⟩ := Option.ne_none_iff_exists'.mp (filled r mem)
  obtain ⟨y, hy⟩ := Option.ne_none_iff_exists'.mp (filled r' mem')
  rw [hx, hy] at ahead behind
  exact identified r mem r' mem' (by rw [hx, hy, prefers_antisymm ahead behind])

include identified filled in
theorem delete_duplicates_exact_iff :
    CleanupKeepsOne pk columns keep (db table)
        (runAll db [deleteDuplicates table pk columns keep] table) ↔
      ∀ r ∈ db table, ∀ r' ∈ db table, SameKey columns r r' → ¬ FullKey columns r → r = r' := by
  have kept : ∀ r ∈ db table, r ∈ runAll db [deleteDuplicates table pk columns keep] table ↔ _ :=
    fun r mem => delete_duplicates_keeps identified filled mem
  constructor
  · intro exact_ r mem r' mem' same partial_
    have stays : ∀ q ∈ db table, ¬ FullKey columns q →
        q ∈ runAll db [deleteDuplicates table pk columns keep] table := by
      intro q hq null
      by_contra gone
      exact null (exact_.removed q hq gone).1
    have partial' : ¬ FullKey columns r' := (full_key_congr same).not.mp partial_
    exact preferred_unique identified filled mem mem'
      ((kept r mem).mp (stays r mem partial_) r' mem' same.symm)
      ((kept r' mem').mp (stays r' mem' partial') r mem same)
  · intro apart
    refine ⟨fun r mem => delete_duplicates_subset mem, ?_, fun r mem _ => kept r mem, ?_⟩
    · intro r mem gone
      constructor
      · by_contra null
        refine gone ((kept r mem).mpr fun r' mem' same => ?_)
        obtain rfl := apart r mem r' mem' same.symm null
        exact prefers_refl _ _
      · obtain ⟨k, k_mem, k_key, preferred⟩ :=
          exists_chosen filled (keepAggregate keep) columns mem
        exact ⟨k, (kept k k_mem).mpr preferred, k_key.symm⟩
    · intro r mem r' mem' _ same
      have r_mem := delete_duplicates_subset mem
      have r'_mem := delete_duplicates_subset mem'
      exact preferred_unique identified filled r_mem r'_mem
        ((kept r r_mem).mp mem r' r'_mem same.symm) ((kept r' r'_mem).mp mem' r r_mem same)

theorem no_statement_exact_iff :
    CleanupKeepsOne pk columns keep (db table) (runAll db [] table) ↔
      ∀ r ∈ db table, ∀ r' ∈ db table, SameKey columns r r' → FullKey columns r → r = r' := by
  simp only [runAll, List.foldl_nil]
  constructor
  · intro exact_ r mem r' mem' same full
    exact exact_.unique r mem r' mem' full same
  · intro apart
    refine ⟨fun r mem => mem, fun r mem gone => absurd mem gone, fun r mem full => ?_, ?_⟩
    · refine ⟨fun _ r' mem' same => ?_, fun _ => mem⟩
      obtain rfl := apart r mem r' mem' same.symm full
      exact prefers_refl _ _
    · exact fun r mem r' mem' full same => apart r mem r' mem' same full

end Exactness

/-- Exact over every contents that the primary key `pk` admits. -/
theorem duplicate_cleanup_exact_iff {V : Type} [LinearOrder V] {table pk : String}
    {currentSchema : List TableDef} {t : TableDef} {columns : List String}
    (keep : KeepPolicy)
    (found : currentSchema.find? (·.name = table) = some t) (single : SinglePrimaryKey t pk)
    (outside : pk ∉ columns) (db : Tables String V)
    (unique : ((db table).map (· pk)).Nodup) (filled : ∀ r ∈ db table, r pk ≠ none) :
    CleanupKeepsOne pk columns keep (db table)
        (runAll db (buildPreCleanupDelete table columns (.deleteDuplicates keep) currentSchema) table) ↔
      DuplicatesSafe t columns (db table) := by
  have identified : ∀ r ∈ db table, ∀ r' ∈ db table, r pk = r' pk → r = r' :=
    fun r mem r' mem' same => List.inj_on_of_nodup_map unique mem mem' same
  simp only [buildPreCleanupDelete, resolve_single_pk found single outside, DuplicatesSafe]
  by_cases declined : DeclinedInlineKey t
  · simp only [declined, ↓reduceIte]
    exact no_statement_exact_iff
  · simp only [declined, ↓reduceIte]
    exact delete_duplicates_exact_iff identified filled

def userTable : TableDef :=
  { name := "user"
    description := none
    columns := [.new "id" (.simple .integer) false, .new "email" (.simple .text) true]
    constraints := [.primaryKey false ["id"] .default] }

def userRow (id : Nat) : Row String Nat := fun column => if column = "id" then some id else none

def usersWithoutEmail : Tables String Nat := fun table =>
  if table = "user" then [userRow 1, userRow 2] else []

theorem users_identified : ((usersWithoutEmail "user").map (· "id")).Nodup := by decide

theorem users_filled : ∀ r ∈ usersWithoutEmail "user", r "id" ≠ none := by decide

/-- The second of two rows with a null key is deleted. -/
theorem null_keys_merged :
    buildPreCleanupDelete "user" ["email"] .default [userTable] =
        [deleteDuplicates "user" "id" ["email"] .first] ∧
      ¬ CleanupKeepsOne "id" ["email"] .first (usersWithoutEmail "user")
        (runAll usersWithoutEmail (buildPreCleanupDelete "user" ["email"] .default [userTable])
          "user") := by
  have emitted : buildPreCleanupDelete "user" ["email"] .default [userTable] =
      [deleteDuplicates "user" "id" ["email"] .first] := by decide
  refine ⟨emitted, fun exact_ => ?_⟩
  rw [emitted] at exact_
  have second : userRow 2 ∈ usersWithoutEmail "user" := by simp [usersWithoutEmail]
  have gone : userRow 2 ∉ runAll usersWithoutEmail
      [deleteDuplicates "user" "id" ["email"] .first] "user" := by
    rw [delete_duplicates_keeps (fun r mem r' mem' => List.inj_on_of_nodup_map users_identified
      mem mem') users_filled second]
    intro least
    have first := least (userRow 1) (by simp [usersWithoutEmail]) rfl 2 1 rfl rfl
    omega
  exact (exact_.removed (userRow 2) second gone).1 "email" List.mem_cons_self rfl

theorem null_keys_condition :
    CleanupKeepsOne "id" ["email"] .first (usersWithoutEmail "user")
        (runAll usersWithoutEmail
          (buildPreCleanupDelete "user" ["email"] (.deleteDuplicates .first) [userTable]) "user") ↔
      DuplicatesSafe userTable ["email"] (usersWithoutEmail "user") :=
  duplicate_cleanup_exact_iff .first (by decide) (by decide) (by decide) usersWithoutEmail
    users_identified users_filled

end Vespertide
