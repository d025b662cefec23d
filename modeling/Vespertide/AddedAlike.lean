import Vespertide.AddedRows

/-!
What an added column holds in the rows that were there, backend by backend:
the statements are run one after the other, and every row is traced.
-/
namespace Vespertide
open Registry SqlRows

section Alike
variable {V : Type} {lowercase : List Char → List Char} {table : String} {added : ColumnDef}
  {fillWith : Option String} {schema : List TableDef} {pending : List TableConstraint}

/-! Statements that leave the rows alone -/

section One
variable {engine : Engine V} {backend : DatabaseBackend} {db db' : Storage V}

theorem index_still {stmt : IndexCreateStatement}
    (ran : engine.run lowercase backend db (.createIndex stmt) = some db') : db' = db := by
  unfold Engine.run at ran
  split at ran
  · cases ran
  · exact (Option.some.inj ran).symm

theorem types_still {type : Option String}
    (ran : runSteps (engine.run lowercase backend) db (type.toList.map .createEnumType) =
      some db') : db' = db := by
  apply @run_steps_keep _ _ _ id _ _ ?_ _ _ ran
  intro q mem s s' step
  obtain ⟨sql, _, rfl⟩ := List.mem_map.mp mem
  unfold Engine.run at step
  split at step
  · cases step
  · exact (Option.some.inj step).symm

theorem rebuilt_indexes_still {constraints : List TableConstraint}
    (ran : runSteps (engine.run lowercase backend) db
      (recreateIndexesAfterRebuild table constraints pending) = some db') : db' = db := by
  apply @run_steps_keep _ _ _ id _ _ ?_ _ _ ran
  intro q mem s s' step
  obtain ⟨c, _, here⟩ := List.mem_flatMap.mp mem
  split at here
  · simp at here
  · cases c <;> simp only [plainIndexes, uniqueIndexes, List.nil_append, List.append_nil,
      List.mem_singleton, List.not_mem_nil] at here <;> exact index_still (here ▸ step)

/-! A statement on a stored table -/

theorem on_stored_some {f : StoredTable V → Option (StoredTable V)} {t : StoredTable V}
    (held : db table = some t) (ran : onStored db table f = some db') :
    ∃ t', f t = some t' ∧ db' = Function.update db table (some t') := by
  obtain ⟨t', edited, rfl⟩ := Option.map_eq_some_iff.mp ran
  rw [held, Option.bind_some] at edited
  exact ⟨t', edited, rfl⟩

theorem added_run {c : SeaColumnDef} {t : StoredTable V} (held : db table = some t)
    (ran : engine.run lowercase backend db (.addColumn table c) = some db') :
    c.name ∉ t.columnNames ∧
      (∀ row ∈ t.rows, ∃ v, engine.addedCell lowercase backend c row = some v) ∧
      db' = Function.update db table (some ⟨t.columns ++ [c], t.rows.map fun row =>
        Function.update row c.name ((engine.addedCell lowercase backend c row).getD none)⟩) := by
  unfold Engine.run at ran
  split at ran
  · cases ran
  · obtain ⟨t', edited, rfl⟩ := on_stored_some held ran
    split at edited
    · cases edited
    · rename_i fresh
      obtain ⟨filled, fills, rfl⟩ := Option.map_eq_some_iff.mp edited
      obtain ⟨all, rfl⟩ := fill_rows_some fills
      exact ⟨fresh, all, rfl⟩

theorem filled_run {c : SeaColumnDef} {expr : String} {t : StoredTable V}
    (held : db table = some t) (found : t.columns.find? (·.name = c.name) = some c)
    (ran : engine.run lowercase backend db (.fillColumn table c.name expr false) = some db') :
    (∀ row ∈ t.rows, ∃ v, engine.cell c
        (some (convertFillWithForBackend lowercase expr backend)) row = some v) ∧
      db' = Function.update db table (some ⟨t.columns, t.rows.map fun row =>
        Function.update row c.name ((engine.cell c
          (some (convertFillWithForBackend lowercase expr backend)) row).getD none)⟩) := by
  unfold Engine.run at ran
  split at ran
  · cases ran
  · obtain ⟨t', edited, rfl⟩ := on_stored_some held ran
    rw [found, Option.bind_some] at edited
    obtain ⟨filled, fills, rfl⟩ := Option.map_eq_some_iff.mp edited
    simp only [Bool.false_eq_true, false_and, ↓reduceIte] at fills
    obtain ⟨all, rfl⟩ := fill_rows_some fills
    exact ⟨all, rfl⟩

theorem modified_run {c : SeaColumnDef} {comment : Option String} {t : StoredTable V}
    (held : db table = some t)
    (ran : engine.run lowercase backend db (.modifyColumn table c comment) = some db') :
    (c.notNull → ∀ row ∈ t.rows, row c.name ≠ none) ∧
      ∃ columns, db' = Function.update db table (some ⟨columns, t.rows⟩) := by
  unfold Engine.run at ran
  split at ran
  · cases ran
  · obtain ⟨t', edited, rfl⟩ := on_stored_some held ran
    split at edited
    · cases edited
    · rename_i kept
      obtain rfl := Option.some.inj edited
      refine ⟨fun required row mem null => kept ⟨required, row, mem, ?_⟩, _, rfl⟩
      simp [null]

/-! An alteration -/

def FilledFrom (engine : Engine V) (table : String) (added : ColumnDef) (text : Option String)
    (rows : List (Row String V)) (after : Storage V) : Prop :=
  (∀ row ∈ rows, ∃ v, engine.reads added.type text row = some v ∧ (v = none → added.nullable)) ∧
    ∃ columns, after table = some ⟨columns, rows.map fun row =>
      Function.update row added.name ((engine.reads added.type text row).getD none)⟩

theorem filled_from {text : Option String} {rows : List (Row String V)}
    {cell : Row String V → Option (Option V)} {columns : List SeaColumnDef}
    (left : db' table = some ⟨columns, rows.map fun row =>
      Function.update row added.name ((cell row).getD none)⟩)
    (cells : ∀ row ∈ rows, ∃ v, cell row = some v ∧
      engine.reads added.type text row = some v ∧ (v = none → added.nullable)) :
    FilledFrom engine table added text rows db' := by
  constructor
  · intro row mem
    obtain ⟨v, _, read⟩ := cells row mem
    exact ⟨v, read⟩
  · refine ⟨columns, left.trans ?_⟩
    congr 2
    apply List.map_congr_left
    intro row mem
    obtain ⟨v, cell_eq, read, _⟩ := cells row mem
    rw [cell_eq, read]

theorem cell_nullable {c : SeaColumnDef} {text : Option String} {row : Row String V} {w : Option V}
    (plain : c = buildSeaColumnDef added) (ran : engine.cell c text row = some w) :
    engine.reads added.type text row = some w ∧ (w = none → added.nullable) := by
  subst plain
  obtain ⟨read, required⟩ := cell_some ran fun _ => rfl
  exact ⟨read, fun null => by simpa [buildSeaColumnDef] using required null⟩

theorem added_filled {t : StoredTable V} (held : db table = some t)
    (implied : backend = .mySql → added.nullable = false →
      (buildSeaColumnDef added).defaultText lowercase backend = none → t.rows = [])
    (ran : engine.run lowercase backend db (.addColumn table (buildSeaColumnDef added)) = some db') :
    FilledFrom engine table added ((buildSeaColumnDef added).defaultText lowercase backend) t.rows
      db' := by
  obtain ⟨_, cells, rfl⟩ := added_run held ran
  apply filled_from (Function.update_self ..)
  intro row mem
  obtain ⟨v, cell⟩ := cells row mem
  refine ⟨v, cell, cell_nullable rfl (.trans ?_ cell)⟩
  unfold Engine.addedCell
  split
  · rename_i expr default
    rw [default]
  · rename_i no_default
    rw [no_default]
    split
    · rename_i required
      have empty := implied required.2 (by simpa [buildSeaColumnDef] using required.1) no_default
      rw [empty] at mem
      cases mem
    · rfl

theorem backfilled {t : StoredTable V} {expr : String} (required : needsFill added)
    (fits : ∀ row ∈ t.rows, ∀ c ∉ t.columnNames, row c = none) (held : db table = some t)
    (ran : runSteps (engine.run lowercase backend) db
      [.addColumn table (buildSeaColumnDef { added with nullable := true }),
        .fillColumn table added.name expr false,
        .modifyColumn table (buildSeaColumnDef added) none] = some db') :
    FilledFrom engine table added (some (convertFillWithForBackend lowercase expr backend)) t.rows
      db' := by
  obtain ⟨nullable, no_default⟩ : added.nullable = false ∧ added.default = none := by
    simpa [needsFill] using required
  obtain ⟨db₁, step₁, rest⟩ := Option.bind_eq_some_iff.mp ran
  obtain ⟨db₂, step₂, rest⟩ := Option.bind_eq_some_iff.mp rest
  obtain ⟨db₃, step₃, rest⟩ := Option.bind_eq_some_iff.mp rest
  obtain rfl := Option.some.inj rest
  obtain ⟨fresh, _, rfl⟩ := added_run held step₁
  -- the column is added with nulls, and a row holds nothing under the name before that
  have nulls : ∀ row ∈ t.rows, Function.update row added.name ((engine.addedCell lowercase backend
      (buildSeaColumnDef { added with nullable := true }) row).getD none) = row := by
    intro row mem
    have null : engine.addedCell lowercase backend
        (buildSeaColumnDef { added with nullable := true }) row = some none := by
      simp [Engine.addedCell, SeaColumnDef.defaultText, buildSeaColumnDef, no_default,
        Engine.cell, Engine.reads, Engine.store]
    rw [null, Option.getD_some, ← fits row mem added.name fresh, Function.update_eq_self]
  have found : (t.columns ++ [buildSeaColumnDef { added with nullable := true }]).find?
      (·.name = added.name) = some (buildSeaColumnDef { added with nullable := true }) := by
    rw [List.find?_append, List.find?_eq_none.mpr]
    · simp [buildSeaColumnDef]
    · intro c mem same
      exact fresh (List.mem_map.mpr ⟨c, mem, of_decide_eq_true same⟩)
  have middle : Function.update db table (some ⟨t.columns ++
      [buildSeaColumnDef { added with nullable := true }], t.rows.map fun row =>
        Function.update row added.name ((engine.addedCell lowercase backend
          (buildSeaColumnDef { added with nullable := true }) row).getD none)⟩) table =
      some ⟨t.columns ++ [buildSeaColumnDef { added with nullable := true }], t.rows⟩ := by
    rw [Function.update_self, List.map_congr_left nulls, List.map_id']
  obtain ⟨cells, rfl⟩ := filled_run (c := buildSeaColumnDef { added with nullable := true })
    middle found step₂
  obtain ⟨not_null, columns, rfl⟩ := modified_run (Function.update_self ..) step₃
  apply filled_from (Function.update_self ..)
  intro row mem
  obtain ⟨v, cell⟩ := cells row mem
  refine ⟨v, cell, (cell_some cell fun _ => rfl).1, ?_⟩
  rintro rfl
  have held_none := not_null (by simp [buildSeaColumnDef, nullable]) _
    (List.mem_map.mpr ⟨row, mem, rfl⟩)
  simp only [buildSeaColumnDef] at held_none cell
  rw [Function.update_self, cell] at held_none
  exact absurd rfl held_none

theorem altered_fresh {t : StoredTable V} {queries : List BuiltQuery}
    (in_place : ¬ AddedByRebuild backend added) (held : db table = some t)
    (built : buildAddColumn backend table schema pending added fillWith = .ok queries)
    (ran : runSteps (engine.run lowercase backend) db queries = some db') :
    added.name ∉ t.columnNames := by
  obtain rfl := Except.ok.inj ((if_neg in_place).symm.trans built)
  rw [run_steps_append] at ran
  obtain ⟨db₁, types, rest⟩ := Option.bind_eq_some_iff.mp ran
  obtain rfl := types_still types
  split at rest
  · obtain ⟨_, step, _⟩ := Option.bind_eq_some_iff.mp rest
    exact (added_run held step).1
  · obtain ⟨_, step, _⟩ := Option.bind_eq_some_iff.mp rest
    exact (added_run held step).1

theorem altered_rows {t : StoredTable V} {queries : List BuiltQuery}
    (in_place : ¬ AddedByRebuild backend added) (held : db table = some t)
    (fits : ∀ row ∈ t.rows, ∀ c ∉ t.columnNames, row c = none)
    (implied : backend = .mySql → added.nullable = false →
      sentText lowercase backend added fillWith = none → t.rows = [])
    (built : buildAddColumn backend table schema pending added fillWith = .ok queries)
    (ran : runSteps (engine.run lowercase backend) db queries = some db') :
    FilledFrom engine table added (sentText lowercase backend added fillWith) t.rows db' := by
  obtain rfl := Except.ok.inj ((if_neg in_place).symm.trans built)
  rw [run_steps_append] at ran
  obtain ⟨db₁, types, rest⟩ := Option.bind_eq_some_iff.mp ran
  obtain rfl := types_still types
  have default : defaultSent lowercase backend added =
      (buildSeaColumnDef added).defaultText lowercase backend := if_neg in_place
  split at rest
  · rename_i filled
    obtain ⟨nullable, no_default, given⟩ := filled
    obtain ⟨fill, rfl⟩ := Option.isSome_iff_exists.mp given
    have required : needsFill added = true := Bool.and_eq_true_iff.mpr ⟨nullable, no_default⟩
    have elsewhere : backend ≠ .sqlite := fun sqlite => in_place ⟨sqlite, .inl nullable⟩
    simp only [sentText, required, claimedText, normalizeFillWith, Option.map_some, fillSent,
      elsewhere, true_or, ↓reduceIte]
    exact backfilled required fits held rest
  · rename_i unfilled
    have sent : sentText lowercase backend added fillWith =
        (buildSeaColumnDef added).defaultText lowercase backend := by
      rw [← default]
      unfold sentText
      split
      · rename_i required
        have needs := required.resolve_right in_place
        have absent : fillWith = none := by
          by_contra given
          refine unfilled ?_
          simp only [needsFill, Bool.and_eq_true] at needs
          exact ⟨needs.1, needs.2, Option.isSome_iff_ne_none.mpr given⟩
        simp [claimedText, absent, normalizeFillWith]
      · rfl
    rw [sent] at implied ⊢
    obtain ⟨db₂, step, last⟩ := Option.bind_eq_some_iff.mp rest
    obtain rfl := Option.some.inj last
    exact added_filled held implied step

/-! A rebuild -/

theorem temp_apart (table : String) : table ++ "_temp" ≠ table := by
  intro same
  have lengths := congrArg String.length same
  simp at lengths

theorem create_run {stmt : TableCreateStatement}
    (ran : engine.run lowercase backend db (.createTable stmt) = some db') :
    db' = Function.update db stmt.table (some ⟨stmt.columns, []⟩) := by
  unfold Engine.run at ran
  split at ran
  · cases ran
  · simp only [create] at ran
    split at ran
    · exact (Option.some.inj ran).symm
    · cases ran

theorem drop_run (ran : engine.run lowercase backend db (.dropTable table) = some db') :
    db' = Function.update db table none := by
  unfold Engine.run at ran
  split at ran
  · cases ran
  · simp only [drop] at ran
    split at ran
    · cases ran
    · exact (Option.some.inj ran).symm

theorem rename_run {old new : String}
    (ran : engine.run lowercase backend db (.renameTable old new) = some db') :
    db' = Function.update (Function.update db new (db old)) old none := by
  unfold Engine.run at ran
  split at ran
  · cases ran
  · simp only [rename] at ran
    split at ran
    · cases ran
    · exact (Option.some.inj ran).symm

theorem copied_run {target source column : String} {columns : List String} {type : ColumnType}
    {fill : FillValue} {s t : StoredTable V} {c : SeaColumnDef} (from_ : db source = some s)
    (into : db target = some t) (found : t.columns.find? (·.name = column) = some c)
    (ran : engine.run lowercase backend db
      (.copyRowsFilling target source columns column type fill) = some db') :
    ∃ filled, fillRows column (fun row =>
        (engine.reads type (fill.text lowercase backend type) row).bind (engine.store c row))
        (s.rows.map (restrictRow columns)) = some filled ∧
      db' = Function.update db target (some ⟨t.columns, t.rows ++ filled⟩) := by
  unfold Engine.run at ran
  split at ran
  · cases ran
  · simp only [from_, Option.bind_some] at ran
    split at ran
    · obtain ⟨t', edited, rfl⟩ := on_stored_some into ran
      rw [found, Option.bind_some] at edited
      obtain ⟨filled, fills, rfl⟩ := Option.map_eq_some_iff.mp edited
      exact ⟨filled, fills, rfl⟩
    · cases ran

def copiedFill (added : ColumnDef) (fillWith : Option String) : FillValue :=
  match normalizeFillWith fillWith, added.default with
  | some value, _ => .fillWith value
  | none, some value => .default value
  | none, none => .null

theorem copied_text (rebuilt : AddedByRebuild .sqlite added) :
    (copiedFill added fillWith).text lowercase .sqlite added.type =
      sentText lowercase .sqlite added fillWith := by
  simp only [sentText, rebuilt, or_true, ↓reduceIte, claimedText, copiedFill, defaultSent]
  cases normalizeFillWith fillWith with
  | some fill => rfl
  | none => cases added.default <;> rfl

theorem rebuilt_rows {t : TableDef} {columns : List SeaColumnDef} {rows : List (Row String V)}
    {queries : List BuiltQuery} (rebuilt : AddedByRebuild backend added)
    (here : tableAt schema table = some t) (held : db table = some ⟨columns, rows⟩)
    (fits : ∀ row ∈ rows, ∀ c ∉ t.columnNames, row c = none) (fresh : added.name ∉ t.columnNames)
    (required : ∀ row ∈ rows, engine.reads added.type
        (sentText lowercase backend added fillWith) row = some none →
      added.nullable ∧ (createTableColumn .sqlite t.constraints added).primaryKey = false)
    (built : buildAddColumn backend table schema pending added fillWith = .ok queries)
    (ran : runSteps (engine.run lowercase backend) db queries = some db') :
    FilledFrom engine table added (sentText lowercase backend added fillWith) rows db' := by
  obtain ⟨rfl, _⟩ := id rebuilt
  have whole : buildAddColumn .sqlite table schema pending added fillWith = .ok
      ([buildSqliteTempTableCreate (table ++ "_temp") table (t.columns ++ [added]) t.constraints,
        .copyRowsFilling (table ++ "_temp") table t.columnNames added.name added.type
          (copiedFill added fillWith), .dropTable table, .renameTable (table ++ "_temp") table] ++
        recreateIndexesAfterRebuild table t.constraints pending) := by
    refine (if_pos rebuilt).trans ?_
    rw [require_table here]
    rfl
  obtain rfl := Except.ok.inj (built.symm.trans whole)
  rw [run_steps_append] at ran
  obtain ⟨db₄, main, indexes⟩ := Option.bind_eq_some_iff.mp ran
  obtain rfl := rebuilt_indexes_still indexes
  obtain ⟨db₁, create_step, rest⟩ := Option.bind_eq_some_iff.mp main
  obtain ⟨db₂, copy_step, rest⟩ := Option.bind_eq_some_iff.mp rest
  obtain ⟨db₃, drop_step, rest⟩ := Option.bind_eq_some_iff.mp rest
  obtain ⟨db₄, rename_step, rest⟩ := Option.bind_eq_some_iff.mp rest
  obtain rfl := Option.some.inj rest
  have apart := temp_apart table
  obtain rfl := create_run create_step
  have found : ((t.columns ++ [added]).map (createTableColumn .sqlite t.constraints)).find?
      (·.name = added.name) = some (createTableColumn .sqlite t.constraints added) := by
    rw [List.map_append, List.find?_append, List.find?_eq_none.mpr]
    · simp [createTableColumn, buildSeaColumnDef]
    · intro c mem same
      obtain ⟨column, member, rfl⟩ := List.mem_map.mp mem
      exact fresh (List.mem_map.mpr ⟨column, member, of_decide_eq_true same⟩)
  obtain ⟨filled, fills, rfl⟩ := copied_run
    ((Function.update_of_ne apart.symm ..).trans held) (Function.update_self ..) found copy_step
  have unchanged : rows.map (restrictRow t.columnNames) = rows := by
    refine (List.map_congr_left fun row mem => ?_).trans (List.map_id' rows)
    funext column
    unfold restrictRow
    split
    · rfl
    · rename_i other
      exact (fits row mem column other).symm
  rw [unchanged, copied_text rebuilt] at fills
  obtain ⟨cells, rfl⟩ := fill_rows_some fills
  obtain rfl := drop_run drop_step
  obtain rfl := rename_run rename_step
  apply filled_from
  · rw [Function.update_of_ne apart.symm, Function.update_self, Function.update_of_ne apart,
      Function.update_self]
    rfl
  · intro row mem
    obtain ⟨v, cell⟩ := cells row mem
    obtain ⟨w, read, stored⟩ := Option.bind_eq_some_iff.mp cell
    obtain ⟨rfl, _⟩ := store_some stored fun null => (required row mem (null ▸ read)).2
    refine ⟨v, cell, read, ?_⟩
    rintro rfl
    exact (required row mem read).1

end One

/-! The backends beside each other -/

section Backends
variable {engine : DatabaseBackend → Engine V} {rows : List (Row String V)}
  {db after : DatabaseBackend → Storage V} {columns : DatabaseBackend → List SeaColumnDef}

def Adds (lowercase : List Char → List Char) (engine : DatabaseBackend → Engine V) (table : String)
    (schema : List TableDef) (pending : List TableConstraint) (added : ColumnDef)
    (fillWith : Option String) (db after : DatabaseBackend → Storage V) : Prop :=
  ∀ backend, ∃ queries,
    buildAddColumn backend table schema pending added fillWith = .ok queries ∧
    runSteps ((engine backend).run lowercase backend) (db backend) queries = some (after backend)

/-- No two engines read the texts they are sent differently. -/
def ReadAlike (engine : DatabaseBackend → Engine V) (added : ColumnDef)
    (text : DatabaseBackend → Option String) (rows : List (Row String V)) : Prop :=
  ∀ row ∈ rows, ∀ b b' v v', (engine b).reads added.type (text b) row = some v →
    (engine b').reads added.type (text b') row = some v' → v = v'

/-- Each row keeps what it held, and in the new column it has one value on every backend,
    the one each engine reads in its text. -/
def FilledAlike (engine : DatabaseBackend → Engine V) (table : String) (added : ColumnDef)
    (text : DatabaseBackend → Option String) (rows : List (Row String V))
    (after : DatabaseBackend → Storage V) : Prop :=
  ∃ settled : Row String V → Option V, ∀ backend,
    (∀ row ∈ rows, (engine backend).reads added.type (text backend) row = some (settled row)) ∧
    ∃ columns, after backend table = some ⟨columns, rows.map fun row =>
      Function.update row added.name (settled row)⟩

theorem sent_none {b b' : DatabaseBackend} (no_rebuild : ¬ AddedByRebuild b added)
    (no_rebuild' : ¬ AddedByRebuild b' added)
    (none_ : sentText lowercase b added fillWith = none) :
    sentText lowercase b' added fillWith = none := by
  simp only [sentText, claimedText, defaultSent, no_rebuild, no_rebuild', or_false,
    ↓reduceIte] at none_ ⊢
  split at none_
  · rename_i needs
    rw [if_pos needs]
    split at none_
    · cases none_
    · simpa [SeaColumnDef.defaultText] using none_
  · rename_i needs
    rw [if_neg needs]
    simpa [SeaColumnDef.defaultText] using none_

theorem alike_of_filled {text : DatabaseBackend → Option String}
    (alike : ReadAlike engine added text rows)
    (filled : ∀ b, FilledFrom (engine b) table added (text b) rows (after b)) :
    FilledAlike engine table added text rows after := by
  have same : ∀ b, ∀ row ∈ rows, (engine b).reads added.type (text b) row =
      some (((engine .postgres).reads added.type (text .postgres) row).getD none) := by
    intro b row mem
    obtain ⟨v, read, _⟩ := (filled b).1 row mem
    obtain ⟨w, pg_read, _⟩ := (filled .postgres).1 row mem
    rw [read, pg_read, alike row mem b .postgres v w read pg_read]
    rfl
  refine ⟨fun row => ((engine .postgres).reads added.type (text .postgres) row).getD none,
    fun b => ⟨same b, ?_⟩⟩
  obtain ⟨columns, left⟩ := (filled b).2
  refine ⟨columns, left.trans ?_⟩
  congr 2
  apply List.map_congr_left
  intro row mem
  rw [same b row mem]
  rfl

/-- A `fill_with` fills a required column without a default; every other column that
    SQLite does not fill on its own is left with its default, or with `NULL`. -/
theorem added_column_fills_alike {t : TableDef} (here : tableAt schema table = some t)
    (held : ∀ b, db b table = some ⟨columns b, rows⟩)
    (named : ∀ b, (columns b).map (·.name) = t.columnNames)
    (fits : ∀ row ∈ rows, ∀ c ∉ t.columnNames, row c = none)
    (meant : FillMeant added fillWith)
    (unkeyed : added.nullable → (createTableColumn .sqlite t.constraints added).primaryKey = false)
    (alike : ReadAlike engine added (settledText lowercase · added fillWith) rows)
    (adds : Adds lowercase engine table schema pending added fillWith db after) :
    FilledAlike engine table added (settledText lowercase · added fillWith) rows after := by
  simp only [← sent_as_meant lowercase _ added fillWith meant] at alike ⊢
  have pg_in_place : ¬ AddedByRebuild .postgres added := fun rebuilt => nomatch rebuilt.1
  have mysql_in_place : ¬ AddedByRebuild .mySql added := fun rebuilt => nomatch rebuilt.1
  have fits_stored : ∀ b, ∀ row ∈ rows, ∀ c ∉ StoredTable.columnNames ⟨columns b, rows⟩,
      row c = none := fun b row mem c other => fits row mem c (named b ▸ other)
  obtain ⟨pg_queries, pg_built, pg_ran⟩ := adds .postgres
  have on_postgres := altered_rows pg_in_place (held _) (fits_stored _) (nomatch ·) pg_built pg_ran
  have fresh : added.name ∉ t.columnNames :=
    named .postgres ▸ altered_fresh pg_in_place (held _) pg_built pg_ran
  apply alike_of_filled alike
  intro b
  cases b with
  | postgres => exact on_postgres
  | mySql =>
    obtain ⟨queries, built, ran⟩ := adds .mySql
    refine altered_rows mysql_in_place (held _) (fits_stored _) ?_ built ran
    -- PostgreSQL refuses a required column that has nothing to be filled from
    intro _ required nothing
    have pg_nothing := sent_none mysql_in_place pg_in_place nothing
    apply List.eq_nil_iff_forall_not_mem.mpr
    intro row mem
    obtain ⟨v, read, nullable⟩ := on_postgres.1 row mem
    rw [pg_nothing] at read
    have open_ := nullable (Option.some.inj read).symm
    rw [required] at open_
    cases open_
  | sqlite =>
    obtain ⟨queries, built, ran⟩ := adds .sqlite
    by_cases rebuilt : AddedByRebuild .sqlite added
    · refine rebuilt_rows rebuilt here (held _) fits fresh ?_ built ran
      intro row mem null
      obtain ⟨v, read, nullable⟩ := on_postgres.1 row mem
      have open_ := nullable (alike row mem .postgres .sqlite v none read null)
      exact ⟨open_, unkeyed open_⟩
    · exact altered_rows rebuilt (held _) (fits_stored _) (nomatch ·) built ran

end Backends

end Alike

/-! On literals -/

def literalValue (expr : String) : Option (Option String) :=
  match expr.toList with
  | ['N', 'U', 'L', 'L'] => some none
  | '\'' :: content =>
      if isOneCompleteQuotedLiteral expr.toList then
        some (some (String.ofList (Text.unquote '\'' content)))
      else none
  | digits => if digits.all (·.isDigit) then some (some expr) else none

def literalEngine (_ : DatabaseBackend) : Engine String :=
  ⟨fun _ expr _ => literalValue expr, fun _ => some (some ""), fun _ _ => some (some "1"),
    fun _ _ => false⟩

def peopleTable : TableDef := ⟨"people", none, [.new "id" (.simple .integer) false], []⟩

def firstPerson : Row String String := fun column => if column = "id" then some "7" else none

def peopleStored (_ : DatabaseBackend) : Storage String := fun name =>
  if name = "people" then
    some ⟨[buildSeaColumnDef (.new "id" (.simple .integer) false)], [firstPerson]⟩
  else none

def peopleAfter (nullable : Bool) (backend : DatabaseBackend) : Storage String :=
  match buildAddColumn backend "people" [peopleTable] []
      (.new "nickname" (.simple .text) nullable) (some "'none'") with
  | .ok queries =>
      (runSteps ((literalEngine backend).run id backend) (peopleStored backend) queries).getD
        (peopleStored backend)
  | .error _ => peopleStored backend

theorem people_adds (nullable : Bool) : Adds id literalEngine "people" [peopleTable] []
    (.new "nickname" (.simple .text) nullable) (some "'none'") peopleStored
    (peopleAfter nullable) := by
  intro backend
  cases nullable <;> cases backend <;> exact ⟨_, rfl, rfl⟩

theorem claimed_literal (nullable : Bool) (backend : DatabaseBackend) :
    claimedText id backend (.new "nickname" (.simple .text) nullable) (some "'none'") =
      some "'none'" := by
  cases nullable <;> cases backend <;> rfl

theorem nickname_filled : FilledAlike literalEngine "people"
    (.new "nickname" (.simple .text) false)
    (settledText id · (.new "nickname" (.simple .text) false) (some "'none'")) [firstPerson]
    (peopleAfter false) := by
  refine @added_column_fills_alike _ _ _ _ _ [peopleTable] [] _ _ _ _
    (fun _ => [buildSeaColumnDef (.new "id" (.simple .integer) false)]) peopleTable rfl
    (fun _ => rfl) (fun _ => rfl) ?_ (.inr (.inl rfl)) (by decide) ?_ (people_adds false)
  · intro row mem column other
    rw [List.mem_singleton.mp mem, firstPerson, if_neg]
    exact fun same => other (by simp [same, peopleTable, TableDef.columnNames, ColumnDef.new])
  · intro row _ b b' v v' read read'
    simp only [settledText, show needsFill (.new "nickname" (.simple .text) false) = true from rfl,
      ↓reduceIte, claimed_literal] at read read'
    exact Option.some.inj (read.symm.trans read')

/-- A nullable column is left empty, its fill value set aside. -/
theorem nullable_fill_set_aside :
    Adds id literalEngine "people" [peopleTable] [] (.new "nickname" (.simple .text) true)
      (some "'none'") peopleStored (peopleAfter true) ∧
    ¬ FilledAlike literalEngine "people" (.new "nickname" (.simple .text) true)
      (claimedText id · (.new "nickname" (.simple .text) true) (some "'none'")) [firstPerson]
      (peopleAfter true) := by
  refine ⟨people_adds true, ?_⟩
  rintro ⟨settled, filled⟩
  obtain ⟨read, columns, left⟩ := filled .postgres
  have given := read firstPerson (List.mem_singleton_self _)
  simp only [claimed_literal] at given
  have kept : ((peopleAfter true .postgres "people").map fun t =>
      t.rows.map (· "nickname")) = some [none] := rfl
  rw [left] at kept
  simp only [Option.map_some, List.map_cons, List.map_nil, ColumnDef.new, Function.update_self,
    Option.some.injEq, List.cons.injEq, and_true] at kept
  rw [kept] at given
  cases given

end Vespertide
