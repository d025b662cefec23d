import Vespertide.Sql

/-!
The cleanup of orphan rows ahead of a new foreign key. The statement guards
against rows without a parent, not against rows with a null in the key, and in
a self reference both sides of its join read the inner row.
-/
namespace Vespertide
open SqlRows

def joinTerm (childTable refTable : String) (pair : String × String) : Condition String :=
  .eq ⟨some refTable, pair.2⟩ ⟨some childTable, pair.1⟩

/-- `NOT EXISTS (SELECT 1 FROM parent WHERE parent.ref = child.col AND …)` -/
def notExistsParent (childTable refTable : String) (first : String × String)
    (rest : List (String × String)) : Condition String :=
  .not (.exists refTable
    (.all (joinTerm childTable refTable first) (rest.map (joinTerm childTable refTable))))

def buildFkOrphanCleanup (childTable : String) (childColumns : List String) (refTable : String)
    (refColumns : List String) (strategy : ForeignKeyOrphanStrategy) :
    Except QueryError (List (Statement String)) :=
  if childColumns.length ≠ refColumns.length then
    .error (.schemaError s!"FK on '{childTable}': child columns ({childColumns.length}) and ref columns ({refColumns.length}) length mismatch")
  else
    match childColumns, childColumns.zip refColumns with
    | c :: cs, first :: rest =>
        let notExists := notExistsParent childTable refTable first rest
        match strategy with
        | .nullifyOrphans =>
            let nullGuard := Condition.any (.isNotNull ⟨none, c⟩) (cs.map (.isNotNull ⟨none, ·⟩))
            .ok [.updateNull childTable childColumns (.and (.paren nullGuard) notExists)]
        | .deleteOrphans => .ok [.delete childTable notExists]
    | _, _ => .ok []

set_option maxRecDepth 20000 in
example : (buildFkOrphanCleanup "post" ["user_id"] "user" ["id"] .nullifyOrphans).map
    (·.map (renderStatement .postgres)) = .ok ["UPDATE \"post\" SET \"user_id\" = NULL WHERE (\"user_id\" IS NOT NULL) AND NOT EXISTS (SELECT 1 FROM \"user\" WHERE \"user\".\"id\" = \"post\".\"user_id\")"] := by
  decide

section Exactness
variable {V : Type} [LinearOrder V]

/-- `child` points at `parent` in every column pair, with no null. -/
def Matches (pairs : List (String × String)) (child parent : Row String V) : Prop :=
  ∀ p ∈ pairs, parent p.2 = child p.1 ∧ child p.1 ≠ none

/-- `MATCH SIMPLE`: no key column is null and no parent row matches. -/
def Violates (db : Tables String V) (refTable : String) (pairs : List (String × String))
    (row : Row String V) : Prop :=
  (∀ p ∈ pairs, row p.1 ≠ none) ∧ ∀ parent ∈ db refTable, ¬ Matches pairs row parent

def CleanupExact (db : Tables String V) (s : Statement String) (refTable : String)
    (pairs : List (String × String)) : Prop :=
  ∀ row ∈ db s.table,
    (s.effect db row ≠ some row → Violates db refTable pairs row) ∧
    (Violates db refTable pairs row → s.effect db row = none ∨
      ∃ row', s.effect db row = some row' ∧ ∀ p ∈ pairs, row' p.1 = none)

def Guarded (strategy : ForeignKeyOrphanStrategy) (pairs : List (String × String))
    (row : Row String V) : Prop :=
  match strategy with
  | .nullifyOrphans => ∃ p ∈ pairs, row p.1 ≠ none
  | .deleteOrphans => True

/-- No guarded row has a null in its key; in a self reference, where the join
    only compares the inner row with itself, either some row is its own parent
    and no row violates the key, or no row is and all guarded rows violate it. -/
def CleanupSafe (db : Tables String V) (strategy : ForeignKeyOrphanStrategy)
    (childTable refTable : String) (pairs : List (String × String)) : Prop :=
  if childTable = refTable then
    ((∃ row ∈ db childTable, Matches pairs row row) ∧
      ∀ row ∈ db childTable, ¬ Violates db refTable pairs row) ∨
    ((∀ row ∈ db childTable, ¬ Matches pairs row row) ∧
      ∀ row ∈ db childTable, Guarded strategy pairs row → Violates db refTable pairs row)
  else ∀ row ∈ db childTable, Guarded strategy pairs row → ∀ p ∈ pairs, row p.1 ≠ none

def joinedChild (childTable refTable : String) (row parent : Row String V) : Row String V :=
  if childTable = refTable then parent else row

theorem eval_join_term (db : Tables String V) (childTable refTable : String)
    (pair : String × String) (row parent : Row String V) :
    (joinTerm childTable refTable pair).eval db [(refTable, parent), (childTable, row)] = .yes ↔
      parent pair.2 = joinedChild childTable refTable row parent pair.1 ∧
        joinedChild childTable refTable row parent pair.1 ≠ none := by
  by_cases self : childTable = refTable
  · simp [joinTerm, Condition.eval, resolve, joinedChild, self]
  · simp [joinTerm, Condition.eval, resolve, joinedChild, self]

theorem eval_not_exists_parent (db : Tables String V) (childTable refTable : String)
    (first : String × String) (rest : List (String × String)) (row : Row String V) :
    (notExistsParent childTable refTable first rest).eval db [(childTable, row)] = .yes ↔
      ∀ parent ∈ db refTable,
        ¬ Matches (first :: rest) (joinedChild childTable refTable row parent) parent := by
  rw [notExistsParent, eval_not_exists]
  refine forall₂_congr fun parent _ => not_congr ?_
  rw [eval_all, ← List.map_cons]
  simp only [List.forall_mem_map, eval_join_term, Matches]

theorem eval_null_guard (db : Tables String V) (table c : String) (cs : List String)
    (row : Row String V) :
    (Condition.any (.isNotNull ⟨none, c⟩) (cs.map (.isNotNull ⟨none, ·⟩))).eval db
        [(table, row)] = .yes ↔ ∃ c' ∈ c :: cs, row c' ≠ none := by
  rw [eval_any, ← List.map_cons (f := fun c => Condition.isNotNull ⟨none, c⟩)]
  simp [Condition.eval, resolve, Option.isSome_iff_ne_none]

/-- What each emitted statement does to one row of the child table. -/
theorem orphan_cleanup_effect {childTable refTable : String} {childColumns refColumns : List String}
    {strategy : ForeignKeyOrphanStrategy} {s : Statement String}
    (built : buildFkOrphanCleanup childTable childColumns refTable refColumns strategy = .ok [s])
    (db : Tables String V) (row : Row String V) :
    let pairs := childColumns.zip refColumns
    let touched := Guarded strategy pairs row ∧ ∀ parent ∈ db refTable,
      ¬ Matches pairs (joinedChild childTable refTable row parent) parent
    s.table = childTable ∧ pairs ≠ [] ∧
      (s.effect db row ≠ some row ↔ touched) ∧
      (touched → s.effect db row = none ∨
        ∃ row', s.effect db row = some row' ∧ ∀ p ∈ pairs, row' p.1 = none) := by
  simp only [buildFkOrphanCleanup] at built
  split at built
  · simp at built
  · rename_i lengths
    split at built
    · rename_i c cs first rest pairs
      have columns : (c :: cs) = (first :: rest).map Prod.fst := by
        rw [← pairs, List.map_fst_zip]
        exact (not_not.mp lengths).le
      rw [pairs]
      have orphan := eval_not_exists_parent db childTable refTable first rest row
      cases strategy with
      | deleteOrphans =>
        simp only [Except.ok.injEq, List.cons.injEq, and_true] at built
        subst built
        refine ⟨rfl, by simp, ?_, ?_⟩
        · rw [ne_eq, effect_delete_kept, not_not, orphan]
          simp [Guarded]
        · rintro ⟨_, none_matches⟩
          exact Or.inl ((effect_delete_none _ _ _ _).mpr (orphan.mpr none_matches))
      | nullifyOrphans =>
        simp only [Except.ok.injEq, List.cons.injEq, and_true] at built
        subst built
        have guarded := eval_null_guard db childTable c cs row
        have affected : (Condition.and (.paren (.any (.isNotNull ⟨none, c⟩)
            (cs.map (.isNotNull ⟨none, ·⟩)))) (notExistsParent childTable refTable first rest)).eval
              db [(childTable, row)] = .yes ↔
            Guarded .nullifyOrphans (first :: rest) row ∧ ∀ parent ∈ db refTable,
              ¬ Matches (first :: rest) (joinedChild childTable refTable row parent) parent := by
          simp only [Condition.eval, and_yes_iff, guarded, orphan, Guarded, columns, List.mem_map,
            exists_exists_and_eq_and]
        refine ⟨rfl, by simp, ?_, ?_⟩
        · rw [ne_eq, effect_update_kept, affected]
          constructor
          · intro changed
            by_contra untouched
            exact changed fun touched => absurd touched untouched
          · intro touched unchanged
            obtain ⟨p, mem, filled⟩ := touched.1
            refine filled (unchanged touched p.1 ?_)
            rw [columns]
            exact List.mem_map_of_mem mem
        · intro touched
          right
          refine ⟨_, by rw [Statement.effect, if_pos (affected.mpr touched)], fun p mem => ?_⟩
          rw [if_pos]
          rw [columns]
          exact List.mem_map_of_mem mem
    · simp at built

omit [LinearOrder V] in
theorem violates_guarded {db : Tables String V} {refTable : String}
    {pairs : List (String × String)} {row : Row String V} (strategy : ForeignKeyOrphanStrategy)
    (nonempty : pairs ≠ []) (violates : Violates db refTable pairs row) :
    Guarded strategy pairs row := by
  cases strategy with
  | deleteOrphans => trivial
  | nullifyOrphans =>
    obtain ⟨p, rest, rfl⟩ := List.exists_cons_of_ne_nil nonempty
    exact ⟨p, List.mem_cons_self, violates.1 p List.mem_cons_self⟩

theorem cleanup_exact_iff {childTable refTable : String} {childColumns refColumns : List String}
    {strategy : ForeignKeyOrphanStrategy} {s : Statement String}
    (built : buildFkOrphanCleanup childTable childColumns refTable refColumns strategy = .ok [s])
    (db : Tables String V) :
    let pairs := childColumns.zip refColumns
    CleanupExact db s refTable pairs ↔ ∀ row ∈ db childTable,
      ((Guarded strategy pairs row ∧ ∀ parent ∈ db refTable,
        ¬ Matches pairs (joinedChild childTable refTable row parent) parent) ↔
        Violates db refTable pairs row) := by
  intro pairs
  have table := (orphan_cleanup_effect built db fun _ => none).1
  simp only [CleanupExact, table]
  refine forall₂_congr fun row _ => ?_
  obtain ⟨_, nonempty, changed, resolved⟩ := orphan_cleanup_effect built db row
  rw [changed]
  constructor
  · rintro ⟨only, every⟩
    refine ⟨only, fun violates => ?_⟩
    by_contra untouched
    have kept : s.effect db row = some row := by
      by_contra different
      exact untouched (changed.mp different)
    obtain ⟨p, rest, split⟩ := List.exists_cons_of_ne_nil nonempty
    have mem : p ∈ childColumns.zip refColumns := by simp [split]
    rcases every violates with deleted | ⟨row', nullified, null⟩
    · simp [kept] at deleted
    · obtain rfl : row = row' := Option.some.inj (kept.symm.trans nullified)
      exact violates.1 p mem (null p mem)
  · intro same
    exact ⟨same.mp, fun violates => resolved (same.mpr violates)⟩

theorem orphan_cleanup_exact_iff {childTable refTable : String}
    {childColumns refColumns : List String} {strategy : ForeignKeyOrphanStrategy}
    {s : Statement String}
    (built : buildFkOrphanCleanup childTable childColumns refTable refColumns strategy = .ok [s])
    (db : Tables String V) :
    CleanupExact db s refTable (childColumns.zip refColumns) ↔
      CleanupSafe db strategy childTable refTable (childColumns.zip refColumns) := by
  have nonempty := (orphan_cleanup_effect built db fun _ => none).2.1
  refine (cleanup_exact_iff built db).trans ?_
  generalize childColumns.zip refColumns = pairs at nonempty
  by_cases self : childTable = refTable
  · subst self
    simp only [CleanupSafe, joinedChild, ↓reduceIte]
    by_cases own : ∃ row ∈ db childTable, Matches pairs row row
    · obtain ⟨r, mem, matched⟩ := own
      have blocked : ¬ ∀ parent ∈ db childTable, ¬ Matches pairs parent parent :=
        fun none_matches => none_matches r mem matched
      simp only [blocked, and_false, false_iff, false_and, or_false]
      exact ⟨fun h => ⟨⟨r, mem, matched⟩, h⟩, And.right⟩
    · have free : ∀ parent ∈ db childTable, ¬ Matches pairs parent parent :=
        fun parent mem matched => own ⟨parent, mem, matched⟩
      simp only [own, false_and, false_or, and_iff_left free]
      constructor
      · intro same
        exact ⟨free, fun row mem => (same row mem).mp⟩
      · rintro ⟨_, only⟩ row mem
        exact ⟨only row mem, violates_guarded strategy nonempty⟩
  · simp only [CleanupSafe, joinedChild, self, ↓reduceIte]
    refine forall₂_congr fun row _ => ?_
    constructor
    · intro same guarded p mem null
      have orphan : ∀ parent ∈ db refTable, ¬ Matches pairs row parent :=
        fun parent _ matched => (matched p mem).2 null
      exact (same.mp ⟨guarded, orphan⟩).1 p mem null
    · intro filled
      constructor
      · rintro ⟨guarded, orphan⟩
        exact ⟨filled guarded, orphan⟩
      · intro violates
        exact ⟨violates_guarded strategy nonempty violates, violates.2⟩

end Exactness

def postsWithoutAuthor : Tables String Nat := fun table =>
  if table = "post" then [fun _ => none] else []

/-- `DeleteOrphans` deletes a row whose key is null, which no foreign key forbids. -/
theorem null_key_deleted : ∃ s,
    buildFkOrphanCleanup "post" ["user_id"] "user" ["id"] .deleteOrphans = .ok [s] ∧
      ¬ CleanupExact postsWithoutAuthor s "user" [("user_id", "id")] := by
  refine ⟨_, rfl, fun exact_ => ?_⟩
  have deleted := (effect_delete_none postsWithoutAuthor "post"
    (notExistsParent "post" "user" ("user_id", "id") []) fun _ => none).mpr (by decide)
  have violates := (exact_ (fun _ => none) List.mem_cons_self).1
    fun kept => Option.some_ne_none _ (kept.symm.trans deleted)
  exact violates.1 ("user_id", "id") List.mem_cons_self rfl

theorem null_key_condition :
    CleanupExact postsWithoutAuthor
        (.delete "post" (notExistsParent "post" "user" ("user_id", "id") [])) "user"
        [("user_id", "id")] ↔
      CleanupSafe postsWithoutAuthor .deleteOrphans "post" "user" [("user_id", "id")] :=
  orphan_cleanup_exact_iff
    (rfl : buildFkOrphanCleanup "post" ["user_id"] "user" ["id"] .deleteOrphans = .ok [_])
    postsWithoutAuthor

end Vespertide
