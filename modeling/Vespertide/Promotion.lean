import Vespertide.Normalize
import Vespertide.Support.AppendMissing

/-!
What normalisation promotes. The inline declarations of the columns are read as
a list of candidate constraints, which complete the explicit ones.
-/
namespace Vespertide
open AppendMissing

/-- `existing` stands for the inline declaration that `candidate` comes from. -/
def covers (existing candidate : TableConstraint) : Bool :=
  match candidate with
  | .primaryKey _ _ _ => existing.isPrimaryKey
  | .unique name columns _ => uniqueConstraintExists [existing] name columns
  | .foreignKey _ [column] _ _ _ _ _ => foreignKeyConstraintExists [existing] column
  | .foreignKey _ _ _ _ _ _ _ => false
  | .check _ _ _ => false
  | .index name columns => indexConstraintExists [existing] name columns

/-! Groups of columns -/

def collectGroups (declared : ColumnDef → List String) (columns : List ColumnDef)
    (s : GroupState) : GroupState :=
  columns.foldl (fun s col =>
    (declared col).foldl (fun s group => pushGroupedColumn s group col.name) s) s

def groupMembers (s : GroupState) : List (String × List String) :=
  s.order.filterMap fun group => (s.groups.lookup group).map (group, ·)

def uniqueCandidates (columns : List ColumnDef) : List TableConstraint :=
  (groupMembers (collectGroups (fun c => declaredGroups c.name c.unique) columns ⟨[], []⟩)).map
    fun (group, members) => .unique (generatedNameToConstraintName group) members .default

def indexCandidates (columns : List ColumnDef) : List TableConstraint :=
  (groupMembers (collectGroups (fun c => declaredGroups c.name c.index) columns ⟨[], []⟩)).map
    fun (group, members) => .index (generatedNameToConstraintName group) members

def primaryKeyCandidates (columns : List ColumnDef) : List TableConstraint :=
  let (pkColumns, pkAutoIncrement) := collectPrimaryKeyColumns columns
  if pkColumns = [] then [] else [.primaryKey pkAutoIncrement pkColumns .default]

def foreignKeyCandidate (c : ColumnDef) : Option TableConstraint :=
  match c.foreignKey with
  | none => none
  | some fkSyntax =>
      match parseForeignKey c.name fkSyntax with
      | .error _ => none
      | .ok parts => some (.foreignKey none [c.name] parts.refTable parts.refColumns parts.onDelete
          parts.onUpdate .default)

def candidates (columns : List ColumnDef) : List TableConstraint :=
  primaryKeyCandidates columns ++ uniqueCandidates columns ++ columns.filterMap foreignKeyCandidate
    ++ indexCandidates columns

def promoted (t : TableDef) : List TableConstraint :=
  appendMissing covers (candidates t.columns) t.constraints

/-- An inline declaration that normalisation accepts. -/
structure InlineOk (c : ColumnDef) : Prop where
  foreignKey : ∀ fkSyntax, c.foreignKey = some fkSyntax → ∃ parts,
    parseForeignKey c.name fkSyntax = .ok parts
  index : (declaredGroups c.name c.index).Nodup

/-! The passes complete the list with their candidates -/

theorem any_covered {p : TableConstraint → Bool} {constraints : List TableConstraint}
    {candidate : TableConstraint} (same : ∀ e, covers e candidate = p e) :
    Covered covers constraints candidate ↔ constraints.any p = true := by
  simp [Covered, same]

theorem primary_key_pass (columns : List ColumnDef) (constraints : List TableConstraint) :
    addPrimaryKeyConstraint columns constraints =
      appendMissing covers (primaryKeyCandidates columns) constraints := by
  simp only [addPrimaryKeyConstraint, primaryKeyCandidates]
  by_cases none_declared : (collectPrimaryKeyColumns columns).1 = []
  · simp [none_declared, appendMissing]
  · have covered : ∀ autoIncrement key, Covered covers constraints
        (.primaryKey autoIncrement key .default) ↔ hasPrimaryKeyConstraint constraints = true :=
      fun _ _ => any_covered fun _ => rfl
    simp [none_declared, appendMissing, covered]

theorem unique_covered (constraints : List TableConstraint) (name : Option String)
    (columns : List String) (strategy : UniqueConstraintStrategy) :
    Covered covers constraints (.unique name columns strategy) ↔
      uniqueConstraintExists constraints name columns = true :=
  any_covered fun e => by simp [covers, uniqueConstraintExists]

theorem index_covered (constraints : List TableConstraint) (name : Option String)
    (columns : List String) :
    Covered covers constraints (.index name columns) ↔
      indexConstraintExists constraints name columns = true :=
  any_covered fun e => by simp [covers, indexConstraintExists]

/-- Every name in the order has its members recorded. -/
def GroupState.Recorded (s : GroupState) : Prop := ∀ g ∈ s.order, s.groups.lookup g ≠ none

theorem unique_groups_pass {groups : ColumnGroups} {order : List String}
    (recorded : ∀ g ∈ order, groups.lookup g ≠ none) (constraints : List TableConstraint) :
    addUniqueConstraintsFromGroups groups order constraints =
      .ok (appendMissing covers ((groupMembers ⟨groups, order⟩).map fun (group, members) =>
        .unique (generatedNameToConstraintName group) members .default) constraints) := by
  induction order generalizing constraints with
  | nil => rfl
  | cons g order ih =>
    obtain ⟨members, found⟩ := Option.ne_none_iff_exists'.mp (recorded g List.mem_cons_self)
    simp only [addUniqueConstraintsFromGroups, found]
    rw [ih fun g' mem => recorded g' (List.mem_cons_of_mem g mem)]
    simp only [groupMembers, List.filterMap_cons, found, Option.map_some, List.map_cons,
      appendMissing, unique_covered]

theorem index_groups_pass {groups : ColumnGroups} {order : List String}
    (recorded : ∀ g ∈ order, groups.lookup g ≠ none) (constraints : List TableConstraint) :
    addIndexConstraintsFromGroups groups order constraints =
      .ok (appendMissing covers ((groupMembers ⟨groups, order⟩).map fun (group, members) =>
        .index (generatedNameToConstraintName group) members) constraints) := by
  induction order generalizing constraints with
  | nil => rfl
  | cons g order ih =>
    obtain ⟨members, found⟩ := Option.ne_none_iff_exists'.mp (recorded g List.mem_cons_self)
    simp only [addIndexConstraintsFromGroups, found]
    rw [ih fun g' mem => recorded g' (List.mem_cons_of_mem g mem)]
    simp only [groupMembers, List.filterMap_cons, found, Option.map_some, List.map_cons,
      appendMissing, index_covered]

theorem lookup_append_to_group (groups : ColumnGroups) (g column g' : String) :
    (appendToGroup groups g column).lookup g' =
      if g' = g then some ((groups.lookup g).getD [] ++ [column]) else groups.lookup g' := by
  induction groups with
  | nil =>
    by_cases same : g' = g
    · simp [appendToGroup, same]
    · simp [appendToGroup, List.lookup_cons, same, beq_false_of_ne same]
  | cons head rest ih =>
    obtain ⟨k, members⟩ := head
    by_cases here : k = g
    · subst here
      by_cases same : g' = k
      · simp [appendToGroup, same]
      · simp [appendToGroup, List.lookup_cons, same, beq_false_of_ne same]
    · by_cases same : g' = k
      · subst same
        simp [appendToGroup, here]
      · simp [appendToGroup, here, List.lookup_cons, beq_false_of_ne same, ih,
          beq_false_of_ne (Ne.symm here)]

theorem push_recorded {s : GroupState} (recorded : s.Recorded) (g column : String) :
    (pushGroupedColumn s g column).Recorded := by
  intro g' mem
  simp only [pushGroupedColumn] at mem ⊢
  rw [lookup_append_to_group]
  by_cases same : g' = g
  · simp [same]
  · simp only [same, ↓reduceIte]
    refine recorded g' ?_
    split at mem
    · simpa [same] using mem
    · exact mem

theorem collect_groups_recorded (declared : ColumnDef → List String) (columns : List ColumnDef)
    {s : GroupState} (recorded : s.Recorded) : (collectGroups declared columns s).Recorded := by
  refine List.foldlRecOn columns _ recorded fun s recorded col _ => ?_
  exact List.foldlRecOn _ _ recorded fun s recorded g _ => push_recorded recorded g col.name

theorem start_recorded : GroupState.Recorded ⟨[], []⟩ := by simp [GroupState.Recorded]

theorem unique_pass (columns : List ColumnDef) (constraints : List TableConstraint) :
    addUniqueConstraints columns constraints =
      .ok (appendMissing covers (uniqueCandidates columns) constraints) :=
  unique_groups_pass (collect_groups_recorded _ columns start_recorded) constraints

/-! Foreign keys -/

theorem foreign_key_covered (constraints : List TableConstraint) (column refTable : String)
    (refColumns : List String) (onDelete onUpdate : Option ReferenceAction) :
    Covered covers constraints
      (.foreignKey none [column] refTable refColumns onDelete onUpdate .default) ↔
      foreignKeyConstraintExists constraints column = true :=
  any_covered fun e => by simp [covers, foreignKeyConstraintExists]

theorem foreign_key_pass {columns : List ColumnDef}
    (parses : ∀ c ∈ columns, ∀ fkSyntax, c.foreignKey = some fkSyntax → ∃ parts,
      parseForeignKey c.name fkSyntax = .ok parts) (constraints : List TableConstraint) :
    addForeignKeyConstraints columns constraints =
      .ok (appendMissing covers (columns.filterMap foreignKeyCandidate) constraints) := by
  induction columns generalizing constraints with
  | nil => rfl
  | cons c columns ih =>
    have tail := ih fun c' mem => parses c' (List.mem_cons_of_mem c mem)
    cases declared : c.foreignKey with
    | none => simp [addForeignKeyConstraints, foreignKeyCandidate, declared, tail]
    | some fkSyntax =>
      obtain ⟨parts, parsed⟩ := parses c List.mem_cons_self fkSyntax declared
      simp [addForeignKeyConstraints, foreignKeyCandidate, declared, parsed, tail, appendMissing,
        foreign_key_covered]

theorem foreign_keys_parse {columns : List ColumnDef} {constraints result : List TableConstraint}
    (ok : addForeignKeyConstraints columns constraints = .ok result) :
    ∀ c ∈ columns, ∀ fkSyntax, c.foreignKey = some fkSyntax → ∃ parts,
      parseForeignKey c.name fkSyntax = .ok parts := by
  induction columns generalizing constraints with
  | nil => simp
  | cons c columns ih =>
    cases declared : c.foreignKey with
    | none =>
      simp only [addForeignKeyConstraints, declared] at ok
      simpa [declared] using ih ok
    | some fkSyntax =>
      simp only [addForeignKeyConstraints, declared] at ok
      cases parsed : parseForeignKey c.name fkSyntax with
      | error e => simp [parsed] at ok
      | ok parts =>
        simp only [parsed] at ok
        simpa [declared, parsed] using ih ok

/-! Indexes -/

def pushIndex (columnName : String) (s : IndexState) (g : String) : IndexState :=
  { grouped := pushGroupedColumn s.grouped g columnName
    tracker := appendToGroup s.tracker g columnName }

def IndexState.Within (s : IndexState) (seen : List String) : Prop :=
  ∀ g, ∀ column ∈ (s.tracker.lookup g).getD [], column ∈ seen

theorem push_index_array {columnName : String} {names seenInArray : List String} {s : IndexState}
    (nodup : names.Nodup) (apart : ∀ g ∈ names, g ∉ seenInArray)
    (free : ∀ g ∈ names, columnName ∉ (s.tracker.lookup g).getD []) :
    pushIndexArray columnName seenInArray names s = .ok (names.foldl (pushIndex columnName) s) := by
  induction names generalizing seenInArray s with
  | nil => rfl
  | cons g names ih =>
    obtain ⟨fresh, rest⟩ := List.nodup_cons.mp nodup
    simp only [pushIndexArray, apart g List.mem_cons_self, ↓reduceIte, pushCheckedIndex,
      free g List.mem_cons_self, List.foldl_cons]
    refine ih rest ?_ ?_
    · intro g' mem
      have other : g' ≠ g := by rintro rfl; exact fresh mem
      simp [other, apart g' (List.mem_cons_of_mem g mem)]
    · intro g' mem
      have other : g' ≠ g := by rintro rfl; exact fresh mem
      simpa [lookup_append_to_group, other] using free g' (List.mem_cons_of_mem g mem)

theorem push_index_array_nodup {columnName : String} {names seenInArray : List String}
    {s s' : IndexState} (ok : pushIndexArray columnName seenInArray names s = .ok s') :
    names.Nodup ∧ ∀ g ∈ names, g ∉ seenInArray := by
  induction names generalizing seenInArray s with
  | nil => simp
  | cons g names ih =>
    simp only [pushIndexArray] at ok
    split at ok
    · simp at ok
    · rename_i fresh
      split at ok
      · simp at ok
      · obtain ⟨nodup, apart⟩ := ih ok
        simp only [List.mem_cons, not_or] at apart
        refine ⟨List.nodup_cons.mpr ⟨fun mem => (apart g mem).1 rfl, nodup⟩, ?_⟩
        intro g' mem
        rcases List.mem_cons.mp mem with rfl | later
        · exact fresh
        · exact (apart g' later).2

theorem collect_column_indexes {columnName : String} {indexVal : StrOrBoolOrArray}
    {s : IndexState} (nodup : (declaredGroups columnName (some indexVal)).Nodup)
    (free : ∀ g, columnName ∉ (s.tracker.lookup g).getD []) :
    collectColumnIndexes columnName indexVal s =
      .ok ((declaredGroups columnName (some indexVal)).foldl (pushIndex columnName) s) := by
  cases indexVal with
  | str name => simp [collectColumnIndexes, pushCheckedIndex, free, declaredGroups, pushIndex]
  | array names => exact push_index_array nodup (by simp) fun g _ => free g
  | bool b =>
    cases b with
    | true => simp [collectColumnIndexes, pushCheckedIndex, free, declaredGroups, pushIndex]
    | false => simp [collectColumnIndexes, declaredGroups]

theorem collect_column_indexes_nodup {columnName : String} {indexVal : StrOrBoolOrArray}
    {s s' : IndexState} (ok : collectColumnIndexes columnName indexVal s = .ok s') :
    (declaredGroups columnName (some indexVal)).Nodup := by
  cases indexVal with
  | str name => simp [declaredGroups]
  | array names => exact (push_index_array_nodup ok).1
  | bool b => cases b <;> simp [declaredGroups]

theorem push_indexes_within {columnName : String} {seen : List String} (names : List String)
    {s : IndexState} (within : s.Within seen) :
    (names.foldl (pushIndex columnName) s).Within (columnName :: seen) := by
  have wide : s.Within (columnName :: seen) := fun g column mem =>
    List.mem_cons_of_mem columnName (within g column mem)
  refine List.foldlRecOn (motive := fun s : IndexState => s.Within (columnName :: seen)) names _
    wide fun s within g _ => ?_
  intro g' column mem
  simp only [pushIndex, lookup_append_to_group] at mem
  split at mem
  · simp only [Option.getD_some, List.mem_append, List.mem_singleton] at mem
    rcases mem with old | rfl
    · exact within g column old
    · exact List.mem_cons_self
  · exact within g' column mem

theorem push_indexes_grouped (columnName : String) (names : List String) (s : IndexState) :
    (names.foldl (pushIndex columnName) s).grouped =
      names.foldl (fun s g => pushGroupedColumn s g columnName) s.grouped := by
  induction names generalizing s with
  | nil => rfl
  | cons g names ih => exact ih _

theorem collect_index_groups_from {columns : List ColumnDef} {seen : List String} {s : IndexState}
    (nodup : (columns.map (·.name)).Nodup) (apart : ∀ c ∈ columns, c.name ∉ seen)
    (within : s.Within seen)
    (inlines : ∀ c ∈ columns, (declaredGroups c.name c.index).Nodup) :
    (collectIndexGroupsFrom columns s).map (·.grouped) =
      .ok (collectGroups (fun c => declaredGroups c.name c.index) columns s.grouped) := by
  induction columns generalizing seen s with
  | nil => rfl
  | cons c columns ih =>
    obtain ⟨fresh, rest⟩ := List.nodup_cons.mp nodup
    have tail := fun c' mem => inlines c' (List.mem_cons_of_mem c mem)
    have own := inlines c List.mem_cons_self
    have beyond : ∀ c' ∈ columns, c'.name ∉ c.name :: seen := by
      intro c' mem
      have other : c'.name ≠ c.name := fun same => fresh (List.mem_map.mpr ⟨c', mem, same⟩)
      simp [other, apart c' (List.mem_cons_of_mem c mem)]
    cases declared : c.index with
    | none =>
      have wide : s.Within (c.name :: seen) := fun g column mem =>
        List.mem_cons_of_mem c.name (within g column mem)
      simp only [collectIndexGroupsFrom, declared]
      rw [ih rest beyond wide tail]
      simp [collectGroups, declared, declaredGroups]
    | some indexVal =>
      rw [declared] at own
      have free : ∀ g, c.name ∉ (s.tracker.lookup g).getD [] := fun g mem =>
        apart c List.mem_cons_self (within g c.name mem)
      simp only [collectIndexGroupsFrom, declared, collect_column_indexes own free]
      rw [ih rest beyond (push_indexes_within _ within) tail, push_indexes_grouped]
      simp [collectGroups, declared]

theorem index_inlines_ok {columns : List ColumnDef} {s s' : IndexState}
    (ok : collectIndexGroupsFrom columns s = .ok s') :
    ∀ c ∈ columns, (declaredGroups c.name c.index).Nodup := by
  induction columns generalizing s with
  | nil => simp
  | cons c columns ih =>
    simp only [collectIndexGroupsFrom] at ok
    cases declared : c.index with
    | none =>
      simp only [declared] at ok
      simpa [declared, declaredGroups] using ih ok
    | some indexVal =>
      simp only [declared] at ok
      split at ok
      · simp at ok
      · rename_i collected
        simpa [declared, collect_column_indexes_nodup collected] using ih ok

theorem index_pass {columns : List ColumnDef} (nodup : (columns.map (·.name)).Nodup)
    (inlines : ∀ c ∈ columns, (declaredGroups c.name c.index).Nodup)
    (constraints : List TableConstraint) :
    addIndexConstraints columns constraints =
      .ok (appendMissing covers (indexCandidates columns) constraints) := by
  have unused : IndexState.Within ⟨⟨[], []⟩, []⟩ [] := by simp [IndexState.Within]
  have collected := collect_index_groups_from nodup (by simp) unused inlines
  simp only [addIndexConstraints, collectIndexGroups, collected]
  exact index_groups_pass (collect_groups_recorded _ columns start_recorded) constraints

/-! Normalisation as a whole -/

theorem normalize_eq {t : TableDef} (nodup : t.columnNames.Nodup)
    (inlines : ∀ c ∈ t.columns, InlineOk c) :
    t.normalize = .ok { t with constraints := promoted t } := by
  simp only [TableDef.normalize, primary_key_pass, unique_pass, bind, Except.bind, pure,
    Except.pure, foreign_key_pass fun c mem => (inlines c mem).foreignKey,
    index_pass nodup fun c mem => (inlines c mem).index]
  simp only [promoted, candidates, append_missing_append]

theorem normalize_inlines {t t' : TableDef} (ok : t.normalize = .ok t') :
    ∀ c ∈ t.columns, InlineOk c := by
  simp only [TableDef.normalize, bind, Except.bind, pure, Except.pure] at ok
  split at ok
  · simp at ok
  · split at ok
    · simp at ok
    · rename_i keyed
      split at ok
      · simp at ok
      · rename_i indexed
        simp only [addIndexConstraints, collectIndexGroups] at indexed
        cases collected : collectIndexGroupsFrom t.columns ⟨⟨[], []⟩, []⟩ with
        | error e => simp [collected, Except.map] at indexed
        | ok s =>
          intro c mem
          exact ⟨foreign_keys_parse keyed c mem, index_inlines_ok collected c mem⟩

/-! What the candidates depend on -/

/-- The column reduced to its name and its inline declarations. -/
def ColumnDef.declarations (c : ColumnDef) : ColumnDef :=
  { c with type := .simple .integer, nullable := false, default := none, comment := none }

theorem candidates_declarations (columns : List ColumnDef) :
    candidates (columns.map ColumnDef.declarations) = candidates columns := by
  have keys : collectPrimaryKeyColumns (columns.map ColumnDef.declarations) =
      collectPrimaryKeyColumns columns := by
    rw [collectPrimaryKeyColumns, List.foldl_map]
    rfl
  have groups : ∀ (declared : ColumnDef → List String),
      (∀ c, declared c.declarations = declared c) → ∀ s,
      collectGroups declared (columns.map ColumnDef.declarations) s =
        collectGroups declared columns s := by
    intro declared same s
    simp only [collectGroups, List.foldl_map, same]
    rfl
  have uniques := groups (fun c => declaredGroups c.name c.unique) (fun _ => rfl)
  have indexes := groups (fun c => declaredGroups c.name c.index) (fun _ => rfl)
  simp only [candidates, primaryKeyCandidates, keys, uniqueCandidates, uniques, indexCandidates,
    indexes, List.filterMap_map]
  rfl

theorem candidates_congr {columns columns' : List ColumnDef}
    (same : columns.map ColumnDef.declarations = columns'.map ColumnDef.declarations) :
    candidates columns = candidates columns' := by
  rw [← candidates_declarations columns, same, candidates_declarations]

theorem inline_ok_declarations (c : ColumnDef) : InlineOk c.declarations ↔ InlineOk c :=
  ⟨fun ⟨foreignKey, index⟩ => ⟨foreignKey, index⟩, fun ⟨foreignKey, index⟩ => ⟨foreignKey, index⟩⟩

def ColumnDef.Plain (c : ColumnDef) : Prop :=
  c.primaryKey = none ∧ c.unique = none ∧ c.index = none ∧ c.foreignKey = none

theorem candidates_append_plain {columns added : List ColumnDef} (plain : ∀ c ∈ added, c.Plain) :
    candidates (columns ++ added) = candidates columns := by
  have keys : collectPrimaryKeyColumns (columns ++ added) = collectPrimaryKeyColumns columns := by
    simp only [collectPrimaryKeyColumns, List.foldl_append]
    refine List.foldlRecOn (motive := fun acc => acc = _) added _ rfl fun acc same c mem => ?_
    simp [same, pushPrimaryKeyColumn, (plain c mem).1]
  have groups : ∀ (declared : ColumnDef → List String),
      (∀ c ∈ added, declared c = []) → ∀ s,
      collectGroups declared (columns ++ added) s = collectGroups declared columns s := by
    intro declared none_declared s
    simp only [collectGroups, List.foldl_append]
    refine List.foldlRecOn (motive := fun s' => s' = _) added _ rfl fun s' same c mem => ?_
    simp [same, none_declared c mem]
  have uniques := groups (fun c => declaredGroups c.name c.unique)
    fun c mem => by simp [(plain c mem).2.1, declaredGroups]
  have indexes := groups (fun c => declaredGroups c.name c.index)
    fun c mem => by simp [(plain c mem).2.2.1, declaredGroups]
  have foreign : added.filterMap foreignKeyCandidate = [] := by
    rw [List.filterMap_eq_nil_iff]
    intro c mem
    simp [foreignKeyCandidate, (plain c mem).2.2.2]
  simp only [candidates, primaryKeyCandidates, keys, uniqueCandidates, uniques, indexCandidates,
    indexes, List.filterMap_append, foreign, List.append_nil]

theorem Plain.inline_ok {c : ColumnDef} (plain : c.Plain) : InlineOk c := by
  obtain ⟨_, _, index, foreign⟩ := plain
  exact ⟨by simp [foreign], by simp [index, declaredGroups]⟩

/-! The columns of a candidate -/

theorem push_grouped_members {s : GroupState} {names : List String}
    (within : ∀ g, ∀ column ∈ (s.groups.lookup g).getD [], column ∈ names) {g column : String}
    (mem : column ∈ names) :
    ∀ g', ∀ column' ∈ ((pushGroupedColumn s g column).groups.lookup g').getD [],
      column' ∈ names := by
  intro g' column' here
  simp only [pushGroupedColumn, lookup_append_to_group] at here
  split at here
  · simp only [Option.getD_some, List.mem_append, List.mem_singleton] at here
    rcases here with old | rfl
    · exact within g column' old
    · exact mem
  · exact within g' column' here

theorem group_members_within (declared : ColumnDef → List String) (columns : List ColumnDef) :
    ∀ group ∈ groupMembers (collectGroups declared columns ⟨[], []⟩), ∀ column ∈ group.2,
      column ∈ columns.map (·.name) := by
  have within : ∀ g, ∀ column ∈ ((collectGroups declared columns ⟨[], []⟩).groups.lookup g).getD [],
      column ∈ columns.map (·.name) := by
    unfold collectGroups
    refine List.foldlRecOn (motive := fun s : GroupState =>
      ∀ g, ∀ column ∈ (s.groups.lookup g).getD [], column ∈ columns.map (·.name)) _ _ ?_ ?_
    · intro g column here
      simp at here
    · intro s within c mem
      refine List.foldlRecOn (motive := fun s : GroupState =>
        ∀ g, ∀ column ∈ (s.groups.lookup g).getD [], column ∈ columns.map (·.name)) _ _ within ?_
      intro s within g _
      exact push_grouped_members within (List.mem_map_of_mem mem)
  rintro ⟨g, members⟩ mem column here
  obtain ⟨g', _, found⟩ := List.mem_filterMap.mp mem
  obtain ⟨members', lookup, same⟩ := Option.map_eq_some_iff.mp found
  obtain ⟨rfl, rfl⟩ := Prod.mk.inj same
  exact within g' column (by simpa [lookup] using here)

theorem group_members_nonempty (declared : ColumnDef → List String) (columns : List ColumnDef) :
    ∀ group ∈ groupMembers (collectGroups declared columns ⟨[], []⟩), group.2 ≠ [] := by
  have nonempty : ∀ g members,
      (collectGroups declared columns ⟨[], []⟩).groups.lookup g = some members → members ≠ [] := by
    unfold collectGroups
    refine List.foldlRecOn (motive := fun s : GroupState =>
      ∀ g members, s.groups.lookup g = some members → members ≠ []) _ _ ?_ ?_
    · intro g members found
      simp at found
    · intro s nonempty c _
      refine List.foldlRecOn (motive := fun s : GroupState =>
        ∀ g members, s.groups.lookup g = some members → members ≠ []) _ _ nonempty ?_
      intro s nonempty g _ g' members found
      simp only [pushGroupedColumn, lookup_append_to_group] at found
      split at found
      · simp [← Option.some.inj found]
      · exact nonempty g' members found
  rintro ⟨g, members⟩ mem
  obtain ⟨g', _, found⟩ := List.mem_filterMap.mp mem
  obtain ⟨members', lookup, same⟩ := Option.map_eq_some_iff.mp found
  obtain ⟨rfl, rfl⟩ := Prod.mk.inj same
  exact nonempty g' members' lookup

theorem candidate_cases {columns : List ColumnDef} {x : TableConstraint}
    (mem : x ∈ candidates columns) :
    ((columns.filter (·.declaresKey)).map (·.name) ≠ [] ∧
      x = .primaryKey (collectPrimaryKeyColumns columns).2
        ((columns.filter (·.declaresKey)).map (·.name)) .default) ∨
    (∃ group ∈ groupMembers
        (collectGroups (fun c => declaredGroups c.name c.unique) columns ⟨[], []⟩),
      x = .unique (generatedNameToConstraintName group.1) group.2 .default) ∨
    (∃ c ∈ columns, ∃ fkSyntax parts, c.foreignKey = some fkSyntax ∧
      parseForeignKey c.name fkSyntax = .ok parts ∧ x = .foreignKey none [c.name] parts.refTable
        parts.refColumns parts.onDelete parts.onUpdate .default) ∨
    (∃ group ∈ groupMembers
        (collectGroups (fun c => declaredGroups c.name c.index) columns ⟨[], []⟩),
      x = .index (generatedNameToConstraintName group.1) group.2) := by
  simp only [candidates, List.mem_append] at mem
  rcases mem with ((key | unique) | foreign) | index
  · simp only [primaryKeyCandidates, collect_primary_key_columns] at key
    split at key
    · simp at key
    · rename_i nonempty
      exact .inl ⟨nonempty, List.mem_singleton.mp key⟩
  · obtain ⟨group, here, rfl⟩ := List.mem_map.mp unique
    exact .inr (.inl ⟨group, here, rfl⟩)
  · obtain ⟨c, here, found⟩ := List.mem_filterMap.mp foreign
    simp only [foreignKeyCandidate] at found
    split at found
    · simp at found
    · rename_i fkSyntax declared
      split at found
      · simp at found
      · rename_i parts parsed
        exact .inr (.inr (.inl ⟨c, here, fkSyntax, parts, declared, parsed,
          (Option.some.inj found).symm⟩))
  · obtain ⟨group, here, rfl⟩ := List.mem_map.mp index
    exact .inr (.inr (.inr ⟨group, here, rfl⟩))

theorem candidate_columns {columns : List ColumnDef} {x : TableConstraint}
    (mem : x ∈ candidates columns) :
    x.columns ≠ [] ∧ ∀ column ∈ x.columns, column ∈ columns.map (·.name) := by
  rcases candidate_cases mem with ⟨nonempty, rfl⟩ | ⟨group, here, rfl⟩ |
    ⟨c, here, _, _, _, _, rfl⟩ | ⟨group, here, rfl⟩
  · exact ⟨nonempty, fun column mem => (List.filter_sublist.map _).subset mem⟩
  · exact ⟨group_members_nonempty _ columns group here, group_members_within _ columns group here⟩
  · refine ⟨by simp [TableConstraint.columns], ?_⟩
    simpa [TableConstraint.columns] using ⟨c, here, rfl⟩
  · exact ⟨group_members_nonempty _ columns group here, group_members_within _ columns group here⟩

theorem candidate_covers_itself {columns : List ColumnDef} :
    ∀ x ∈ candidates columns, covers x x = true := by
  intro x mem
  rcases candidate_cases mem with ⟨_, rfl⟩ | ⟨group, _, rfl⟩ | ⟨_, _, _, _, _, _, rfl⟩ |
    ⟨group, _, rfl⟩
  · rfl
  · cases h : generatedNameToConstraintName group.1 <;> simp [covers, uniqueConstraintExists]
  · simp [covers, foreignKeyConstraintExists]
  · cases h : generatedNameToConstraintName group.1 <;> simp [covers, indexConstraintExists]

/-! The foreign keys among the candidates -/

def referenceOf : TableConstraint → Option (String × List String)
  | .foreignKey _ _ refTable refColumns _ _ _ => some (refTable, refColumns)
  | _ => none

theorem parse_foreign_key_column (a b : String) (fkSyntax : ForeignKeySyntax) :
    (parseForeignKey a fkSyntax).toOption = (parseForeignKey b fkSyntax).toOption := by
  have reference : ∀ text, (parseForeignKeyReference a text).toOption =
      (parseForeignKeyReference b text).toOption := by
    intro text
    unfold parseForeignKeyReference
    split
    · split <;> rfl
    · rfl
  have mapped : ∀ {α β : Type} (f : α → β) (r r' : Except TableValidationError α),
      r.toOption = r'.toOption → (r.map f).toOption = (r'.map f).toOption := by
    intro α β f r r' same
    cases r <;> cases r' <;> simp_all [Except.map, Except.toOption]
  cases fkSyntax with
  | string text => exact mapped _ _ _ (reference text)
  | reference r => exact mapped _ _ _ (reference r.references)
  | object d => rfl

/-- The reference a column declares inline, if it parses. -/
def ColumnDef.declaredReference (c : ColumnDef) : Option ForeignKeyParts :=
  c.foreignKey.bind fun fkSyntax => (parseForeignKey c.name fkSyntax).toOption

theorem foreign_key_candidate_eq (c : ColumnDef) :
    foreignKeyCandidate c = c.declaredReference.map fun parts =>
      .foreignKey none [c.name] parts.refTable parts.refColumns parts.onDelete parts.onUpdate
        .default := by
  unfold foreignKeyCandidate ColumnDef.declaredReference
  cases c.foreignKey with
  | none => rfl
  | some fkSyntax => cases h : parseForeignKey c.name fkSyntax <;> simp [h, Except.toOption]

theorem declared_reference_congr {c d : ColumnDef} (same : c.foreignKey = d.foreignKey) :
    c.declaredReference = d.declaredReference := by
  unfold ColumnDef.declaredReference
  rw [same]
  cases d.foreignKey with
  | none => rfl
  | some fkSyntax => exact parse_foreign_key_column c.name d.name fkSyntax

theorem foreign_key_candidate {columns : List ColumnDef} {c : TableConstraint}
    (mem : c ∈ candidates columns) {reference : String × List String}
    (refers : referenceOf c = some reference) : ∃ d ∈ columns, foreignKeyCandidate d = some c := by
  rcases candidate_cases mem with ⟨_, rfl⟩ | ⟨_, _, rfl⟩ | ⟨d, here, fkSyntax, parts, declared,
    parsed, rfl⟩ | ⟨_, _, rfl⟩
  · cases refers
  · cases refers
  · exact ⟨d, here, by simp [foreignKeyCandidate, declared, parsed]⟩
  · cases refers

theorem candidate_covered {d : ColumnDef} {c : TableConstraint}
    (candidate : foreignKeyCandidate d = some c) (e : TableConstraint) :
    covers e c = true ↔ (∃ reference, referenceOf e = some reference) ∧ e.columns = [d.name] := by
  simp only [foreignKeyCandidate] at candidate
  split at candidate
  · cases candidate
  · split at candidate
    · cases candidate
    · obtain rfl := Option.some.inj candidate
      cases e <;> simp [covers, foreignKeyConstraintExists, referenceOf, TableConstraint.columns]

/-- Two columns of one name declare the same foreign key. -/
theorem candidate_unique {columns : List ColumnDef} (nodup : (columns.map (·.name)).Nodup)
    {d d' : ColumnDef} (here : d ∈ columns) (there : d' ∈ columns) (same : d.name = d'.name)
    {c e : TableConstraint} (first : foreignKeyCandidate d = some c)
    (second : foreignKeyCandidate d' = some e) : e = c := by
  obtain rfl := List.inj_on_of_nodup_map nodup here there same
  exact Option.some.inj (second.symm.trans first)

end Vespertide
