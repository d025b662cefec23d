import Vespertide.ColumnInvariants
import Vespertide.InlineGroups

/-!
Removed constraints after the next normalisation. Removal clears the declarations
of the constraint's own kind: the group of its name, or the first column of each of
its names. What it leaves gives the constraint back when an unnamed group of several
columns, or a second column of one name, still declares it.
-/
namespace Vespertide
open AppendMissing

/-! The columns a removal spares -/

def sparedFrom (key : List String) : List String → List ColumnDef → List ColumnDef
  | _, [] => []
  | seen, c :: rest =>
      if c.name ∈ key ∧ c.name ∉ seen then sparedFrom key (c.name :: seen) rest
      else c :: sparedFrom key (c.name :: seen) rest

def sparedColumns (key : List String) (columns : List ColumnDef) : List ColumnDef :=
  sparedFrom key [] columns

section Scan
variable {β : Type} {clear : ColumnDef → ColumnDef} {scan : ColumnDef → List β}

def clearedFrom (clear : ColumnDef → ColumnDef) (key : List String) :
    List String → List ColumnDef → List ColumnDef
  | _, [] => []
  | seen, c :: rest =>
      (if c.name ∈ key ∧ c.name ∉ seen then clear c else c) ::
        clearedFrom clear key (c.name :: seen) rest

theorem cleared_from_nil (seen : List String) (columns : List ColumnDef) :
    clearedFrom clear [] seen columns = columns := by
  induction columns generalizing seen with
  | nil => rfl
  | cons c rest ih => simp [clearedFrom, ih]

theorem cleared_from_cons (named : ∀ c, (clear c).name = c.name)
    (once : ∀ c, clear (clear c) = clear c) (column : String) (key seen : List String)
    (columns : List ColumnDef) :
    clearedFrom clear key seen
        (if column ∈ seen then columns else mapFirstColumn column clear columns) =
      clearedFrom clear (column :: key) seen columns := by
  induction columns generalizing seen with
  | nil => simp [mapFirstColumn, clearedFrom]
  | cons c rest ih =>
    have next := ih (c.name :: seen)
    by_cases known : column ∈ seen
    · simp only [known, List.mem_cons, or_true, ↓reduceIte] at next ⊢
      simp only [clearedFrom, List.mem_cons, next]
      by_cases here : c.name = column
      · simp [here, known]
      · simp [here]
    · by_cases here : c.name = column
      · subst here
        simp only [List.mem_cons_self, ↓reduceIte] at next
        simp only [known, ↓reduceIte, mapFirstColumn, clearedFrom, named, List.mem_cons, true_or,
          not_false_eq_true, and_self, next]
        split <;> simp [once]
      · have unseen : column ∉ c.name :: seen := by simp [Ne.symm here, known]
        simp only [unseen, ↓reduceIte] at next
        simp [known, mapFirstColumn, here, clearedFrom, next]

theorem clear_field_eq (named : ∀ c, (clear c).name = c.name)
    (once : ∀ c, clear (clear c) = clear c) (key : List String) (columns : List ColumnDef) :
    clearColumnsField clear key columns = clearedFrom clear key [] columns := by
  induction key generalizing columns with
  | nil => exact (cleared_from_nil [] columns).symm
  | cons column key ih =>
    have step : clearColumnsField clear (column :: key) columns =
        clearColumnsField clear key (mapFirstColumn column clear columns) := rfl
    rw [step, ih]
    exact cleared_from_cons named once column key [] columns

/-- A scan that finds nothing in cleared columns reads the spared ones. -/
theorem scan_cleared (named : ∀ c, (clear c).name = c.name)
    (once : ∀ c, clear (clear c) = clear c) (nothing : ∀ c, scan (clear c) = [])
    (key : List String) (columns : List ColumnDef) :
    (clearColumnsField clear key columns).flatMap scan =
      (sparedColumns key columns).flatMap scan := by
  rw [clear_field_eq named once]
  unfold sparedColumns
  generalize ([] : List String) = seen
  induction columns generalizing seen with
  | nil => rfl
  | cons c rest ih =>
    unfold clearedFrom sparedFrom
    split
    · simp [nothing, ih]
    · simp [ih]

end Scan

/-! What the cleared columns declare -/

def sparedGroup (key : List String) (columns : List ColumnDef) : List ColumnDef :=
  match key with
  | [column] => sparedColumns [column] columns
  | _ => columns

/-- The columns left by the removal of `c` declare it once more, and none of the constraints
    that stay makes normalisation pass it over. -/
def Regenerated (columns : List ColumnDef) (rest : List TableConstraint) (c : TableConstraint) :
    Prop :=
  ¬ Covered covers rest c ∧
    match c with
    | .primaryKey autoIncrement key strategy => strategy = .default ∧ key ≠ [] ∧
        collectPrimaryKeyColumns (sparedColumns key columns) = (key, autoIncrement)
    | .unique none key strategy => strategy = .default ∧ key ≠ [] ∧
        ∃ g, generatedNameToConstraintName g = none ∧
          membersOf uniqueGroups g (sparedGroup key columns) = key
    | .index none key => key ≠ [] ∧ ∃ g, generatedNameToConstraintName g = none ∧
        membersOf indexGroups g (sparedGroup key columns) = key
    | .foreignKey _ [column] _ _ _ _ _ => ((sparedColumns [column] columns).find? fun d =>
        d.name = column ∧ (foreignKeyCandidate d).isSome).bind foreignKeyCandidate = some c
    | _ => False

def keyScan (c : ColumnDef) : List (String × Bool) :=
  match c.primaryKey with
  | some (.bool true) => [(c.name, false)]
  | some (.object pkDef) => [(c.name, pkDef.autoIncrement)]
  | _ => []

theorem collect_key_scan (columns : List ColumnDef) :
    collectPrimaryKeyColumns columns =
      ((columns.flatMap keyScan).map (·.1), (columns.flatMap keyScan).any (·.2)) := by
  have fold : ∀ acc : List String × Bool, columns.foldl pushPrimaryKeyColumn acc =
      (acc.1 ++ (columns.flatMap keyScan).map (·.1),
        acc.2 || (columns.flatMap keyScan).any (·.2)) := by
    induction columns with
    | nil => simp
    | cons c rest ih =>
      intro acc
      rw [List.foldl_cons, ih]
      rcases declared : c.primaryKey with _ | (_ | _) | _ <;>
        simp [pushPrimaryKeyColumn, keyScan, declared, Bool.or_assoc]
  exact (fold ([], false)).trans (by simp)

theorem cleared_keys (key : List String) (columns : List ColumnDef) :
    collectPrimaryKeyColumns (clearColumnsField (fun c => { c with primaryKey := none }) key columns) =
      collectPrimaryKeyColumns (sparedColumns key columns) := by
  have same : (clearColumnsField (fun c => { c with primaryKey := none }) key columns).flatMap
      keyScan = (sparedColumns key columns).flatMap keyScan := by
    apply scan_cleared <;> exact fun _ => rfl
  rw [collect_key_scan, collect_key_scan, same]

theorem members_scan (declared : ColumnDef → List String) (g : String)
    (clear : ColumnDef → ColumnDef)
    (named : ∀ c, (clear c).name = c.name) (once : ∀ c, clear (clear c) = clear c)
    (nothing : ∀ c, declared (clear c) = []) (key : List String) (columns : List ColumnDef) :
    membersOf declared g (match key with
      | [column] => mapFirstColumn column clear columns
      | _ => columns) = membersOf declared g (sparedGroup key columns) := by
  unfold sparedGroup
  split
  · rename_i column
    have single : mapFirstColumn column clear columns = clearColumnsField clear [column] columns := rfl
    unfold membersOf
    rw [single, scan_cleared named once]
    intro c
    simp [nothing]
  · rename_i several
    cases key with
    | nil => rfl
    | cons column rest =>
      cases rest with
      | nil => exact absurd rfl (several column)
      | cons _ _ => rfl

theorem cleared_references (key : List String) (columns : List ColumnDef) :
    (clearColumnsField (fun c => { c with foreignKey := none }) key columns).filterMap
        foreignKeyCandidate =
      (sparedColumns key columns).filterMap foreignKeyCandidate := by
  have scanned : ∀ columns : List ColumnDef, columns.filterMap foreignKeyCandidate =
      columns.flatMap fun c => (foreignKeyCandidate c).toList := by
    intro columns
    induction columns with
    | nil => rfl
    | cons c rest ih => cases declared : foreignKeyCandidate c <;> simp [declared, ih]
  rw [scanned, scanned]
  apply scan_cleared <;> exact fun _ => rfl

/-! Which constraints normalisation reads back -/

theorem mem_candidates_iff (columns : List ColumnDef) (x : TableConstraint) :
    x ∈ candidates columns ↔
      (collectPrimaryKeyColumns columns).1 ≠ [] ∧ x = .primaryKey
        (collectPrimaryKeyColumns columns).2 (collectPrimaryKeyColumns columns).1 .default ∨
      (∃ g, membersOf uniqueGroups g columns ≠ [] ∧ x =
        .unique (generatedNameToConstraintName g) (membersOf uniqueGroups g columns) .default) ∨
      (∃ c ∈ columns, foreignKeyCandidate c = some x) ∨
      ∃ g, membersOf indexGroups g columns ≠ [] ∧ x =
        .index (generatedNameToConstraintName g) (membersOf indexGroups g columns) := by
  have key : x ∈ primaryKeyCandidates columns ↔ (collectPrimaryKeyColumns columns).1 ≠ [] ∧ x =
      .primaryKey (collectPrimaryKeyColumns columns).2 (collectPrimaryKeyColumns columns).1
        .default := by
    unfold primaryKeyCandidates
    by_cases empty : (collectPrimaryKeyColumns columns).1 = [] <;> simp [empty]
  simp only [candidates, List.mem_append, List.mem_filterMap, key, mem_unique_candidates,
    mem_index_candidates, or_assoc]

theorem not_foreign_key_candidate {c : ColumnDef} {x : TableConstraint}
    (other : referenceOf x = none) : foreignKeyCandidate c ≠ some x := by
  rw [foreign_key_candidate_eq]
  intro declared
  obtain ⟨parts, _, rfl⟩ := Option.map_eq_some_iff.mp declared
  cases other

theorem key_mem_candidates (columns : List ColumnDef) (autoIncrement : Bool) (key : List String)
    (strategy : PrimaryKeyAdditionStrategy) :
    .primaryKey autoIncrement key strategy ∈ candidates columns ↔ strategy = .default ∧ key ≠ [] ∧
      collectPrimaryKeyColumns columns = (key, autoIncrement) := by
  have undeclared : ∀ c, foreignKeyCandidate c ≠ some (.primaryKey autoIncrement key strategy) :=
    fun _ => not_foreign_key_candidate rfl
  simp only [mem_candidates_iff, undeclared, reduceCtorEq, and_false,
    exists_false, or_false, TableConstraint.primaryKey.injEq, Prod.ext_iff]
  grind

theorem unique_mem_candidates (columns : List ColumnDef) (name : Option String) (key : List String)
    (strategy : UniqueConstraintStrategy) :
    .unique name key strategy ∈ candidates columns ↔ strategy = .default ∧ key ≠ [] ∧
      ∃ g, generatedNameToConstraintName g = name ∧ membersOf uniqueGroups g columns = key := by
  have undeclared : ∀ c, foreignKeyCandidate c ≠ some (.unique name key strategy) :=
    fun _ => not_foreign_key_candidate rfl
  simp only [mem_candidates_iff, undeclared, reduceCtorEq, and_false,
    exists_false, or_false, false_or, TableConstraint.unique.injEq]
  grind

theorem index_mem_candidates (columns : List ColumnDef) (name : Option String) (key : List String) :
    .index name key ∈ candidates columns ↔ key ≠ [] ∧
      ∃ g, generatedNameToConstraintName g = name ∧ membersOf indexGroups g columns = key := by
  have undeclared : ∀ c, foreignKeyCandidate c ≠ some (.index name key) :=
    fun _ => not_foreign_key_candidate rfl
  simp only [mem_candidates_iff, undeclared, reduceCtorEq, and_false,
    exists_false, false_or, TableConstraint.index.injEq]
  grind

theorem check_not_candidate (columns : List ColumnDef) (name expr : String)
    (strategy : CheckViolationStrategy) : .check name expr strategy ∉ candidates columns := by
  intro mem
  rcases candidate_cases mem with ⟨_, same⟩ | ⟨_, _, same⟩ | ⟨_, _, _, _, _, _, same⟩ | ⟨_, _, same⟩
    <;> cases same

theorem without_name_absent (columnName gone : String) (declared : Option StrOrBoolOrArray)
    (named : generatedNameToConstraintName gone = some gone) :
    gone ∉ declaredGroups columnName (withoutName gone declared) := by
  rcases declared with _ | name | names | b
  · simp [withoutName, declaredGroups]
  · simp only [withoutName]
    split
    · simp [declaredGroups]
    · rename_i other
      simpa [declaredGroups] using Ne.symm other
  · simp only [withoutName]
    split <;> simp [declaredGroups]
  · cases b with
    | false => simp [withoutName, declaredGroups]
    | true =>
      -- the generated group of a column never gives a named constraint
      simp only [withoutName, declaredGroups, List.mem_singleton]
      rintro rfl
      simp [generatedNameToConstraintName, String.toList_append] at named

theorem members_none {declared : ColumnDef → List String} {g : String} {columns : List ColumnDef}
    (absent : ∀ c ∈ columns, g ∉ declared c) : membersOf declared g columns = [] := by
  rw [List.eq_nil_iff_forall_not_mem]
  intro name mem
  obtain ⟨c, here, declares, _⟩ := members_of_member.mp mem
  exact absent c here declares

/-! Regeneration -/

section Regeneration
variable (columns : List ColumnDef) (rest : List TableConstraint)

theorem key_regenerated (table : String) (autoIncrement : Bool) (key : List String)
    (strategy : PrimaryKeyAdditionStrategy) :
    .primaryKey autoIncrement key strategy ∈ missing covers (candidates
        (clearInlineConstraintFields table (.primaryKey autoIncrement key strategy) columns)) rest ↔
      Regenerated columns rest (.primaryKey autoIncrement key strategy) := by
  unfold Regenerated
  rw [mem_missing_of_sole rfl, key_mem_candidates]
  · simp only [clearInlineConstraintFields, cleared_keys]
  · intro mem e here covering
    cases e with
    | primaryKey autoIncrement' key' strategy' =>
      rw [key_mem_candidates] at mem here
      obtain ⟨rfl, _, first⟩ := mem
      obtain ⟨rfl, _, second⟩ := here
      obtain ⟨rfl, rfl⟩ := Prod.mk.inj (first.symm.trans second)
      rfl
    | _ => cases covering

theorem unique_regenerated (table : String) (name : Option String) (key : List String)
    (strategy : UniqueConstraintStrategy) :
    .unique name key strategy ∈ missing covers (candidates
        (clearInlineConstraintFields table (.unique name key strategy) columns)) rest ↔
      Regenerated columns rest (.unique name key strategy) := by
  cases name with
  | none =>
    unfold Regenerated
    rw [mem_missing_of_sole (by simp [covers, uniqueConstraintExists]), unique_mem_candidates]
    · have scanned : ∀ g, membersOf uniqueGroups g (clearUniqueFields none key columns) =
          membersOf uniqueGroups g (sparedGroup key columns) := fun g =>
        members_scan uniqueGroups g (fun c => { c with unique := none }) (fun _ => rfl)
          (fun _ => rfl) (fun _ => rfl) key columns
      simp only [clearInlineConstraintFields, scanned]
    · intro mem e here covering
      cases e with
      | unique name' key' strategy' =>
        rw [unique_mem_candidates] at mem here
        obtain ⟨rfl, _⟩ := mem
        obtain ⟨rfl, _⟩ := here
        cases name' with
        | none =>
          simp only [covers, uniqueConstraintExists, List.any_cons, List.any_nil, Bool.or_false,
            decide_eq_true_eq] at covering
          rw [covering]
        | some other => simp [covers, uniqueConstraintExists] at covering
      | _ => simp [covers, uniqueConstraintExists] at covering
  | some name =>
    refine iff_of_false ?_ (fun again => again.2)
    intro mem
    obtain ⟨_, nonempty, g, generated, members⟩ :=
      (unique_mem_candidates _ _ _ _).mp (missing_subset mem)
    obtain rfl := generated_name_some generated
    apply nonempty
    rw [← members]
    apply members_none
    intro c here
    obtain ⟨d, _, rfl⟩ := List.mem_map.mp here
    rw [clear_unique_name_eq]
    exact without_name_absent d.name g d.unique generated

theorem index_regenerated (table : String) (name : Option String) (key : List String) :
    .index name key ∈ missing covers (candidates
        (clearInlineConstraintFields table (.index name key) columns)) rest ↔
      Regenerated columns rest (.index name key) := by
  cases name with
  | none =>
    unfold Regenerated
    rw [mem_missing_of_sole (by simp [covers, indexConstraintExists]), index_mem_candidates]
    · have scanned : ∀ g, membersOf indexGroups g (clearIndexFields table none key columns) =
          membersOf indexGroups g (sparedGroup key columns) := by
        intro g
        simp only [clearIndexFields, clear_auto_named_none]
        exact members_scan indexGroups g (fun c => { c with index := none }) (fun _ => rfl)
          (fun _ => rfl) (fun _ => rfl) key columns
      simp only [clearInlineConstraintFields, scanned]
    · intro mem e here covering
      cases e with
      | index name' key' =>
        cases name' with
        | none =>
          simp only [covers, indexConstraintExists, List.any_cons, List.any_nil, Bool.or_false,
            decide_eq_true_eq] at covering
          rw [covering]
        | some other => simp [covers, indexConstraintExists] at covering
      | _ => simp [covers, indexConstraintExists] at covering
  | some name =>
    refine iff_of_false ?_ (fun again => again.2)
    intro mem
    obtain ⟨nonempty, g, generated, members⟩ :=
      (index_mem_candidates _ _ _).mp (missing_subset mem)
    obtain rfl := generated_name_some generated
    apply nonempty
    rw [← members]
    apply members_none
    intro c here
    obtain ⟨d, _, rfl⟩ := List.mem_map.mp here
    rw [clear_index_name_eq]
    exact without_name_absent d.name g d.index generated

section Covering
variable {column : String} {x : TableConstraint} (covering : ∀ e, covers e x = true ↔
  (∃ reference, referenceOf e = some reference) ∧ e.columns = [column])
include covering

theorem find_among_candidates (columns : List ColumnDef) :
    (candidates columns).find? (covers · x) =
      (columns.filterMap foreignKeyCandidate).find? (covers · x) := by
  have others : ∀ cands : List TableConstraint, (∀ e ∈ cands, referenceOf e = none) →
      cands.find? (covers · x) = none := by
    intro cands plain
    rw [List.find?_eq_none]
    intro e mem covered
    obtain ⟨⟨reference, refers⟩, _⟩ := (covering e).mp covered
    rw [plain e mem] at refers
    cases refers
  have keys : (primaryKeyCandidates columns).find? (covers · x) = none := by
    apply others
    intro e mem
    unfold primaryKeyCandidates at mem
    by_cases empty : (collectPrimaryKeyColumns columns).1 = []
    · simp [empty] at mem
    · simp only [empty, ↓reduceIte, List.mem_singleton] at mem
      subst mem
      rfl
  have uniques : (uniqueCandidates columns).find? (covers · x) = none := by
    apply others
    intro e mem
    obtain ⟨g, _, rfl⟩ := (mem_unique_candidates columns e).mp mem
    rfl
  have indexes : (indexCandidates columns).find? (covers · x) = none := by
    apply others
    intro e mem
    obtain ⟨g, _, rfl⟩ := (mem_index_candidates columns e).mp mem
    rfl
  rw [candidates, List.find?_append, List.find?_append, List.find?_append, keys, uniques, indexes,
    Option.none_or, Option.none_or, Option.or_none]

/-- The first declaration of its column covers it. -/
theorem find_declared (columns : List ColumnDef) :
    (columns.filterMap foreignKeyCandidate).find? (covers · x) =
      (columns.find? fun d => d.name = column ∧ (foreignKeyCandidate d).isSome).bind
        foreignKeyCandidate := by
  rw [List.find?_filterMap]
  congr 2
  funext d
  cases declared : foreignKeyCandidate d with
  | none => simp
  | some e =>
    have own := covering e
    rw [foreign_key_candidate_eq] at declared
    obtain ⟨parts, _, rfl⟩ := Option.map_eq_some_iff.mp declared
    simp only [referenceOf, Option.some.injEq, exists_eq', TableConstraint.columns, true_and,
      List.cons.injEq, and_true] at own
    rw [Option.any_some, Option.isSome_some, Bool.eq_iff_iff, own]
    simp

end Covering

theorem foreign_key_regenerated (table : String) (name : Option String) (key : List String)
    (refTable : String) (refColumns : List String) (onDelete onUpdate : Option ReferenceAction)
    (strategy : ForeignKeyOrphanStrategy) :
    .foreignKey name key refTable refColumns onDelete onUpdate strategy ∈ missing covers
        (candidates (clearInlineConstraintFields table
          (.foreignKey name key refTable refColumns onDelete onUpdate strategy) columns)) rest ↔
      Regenerated columns rest (.foreignKey name key refTable refColumns onDelete onUpdate strategy) := by
  by_cases single : ∃ column, key = [column]
  · obtain ⟨column, rfl⟩ := single
    set x : TableConstraint :=
      .foreignKey name [column] refTable refColumns onDelete onUpdate strategy
    have covering : ∀ e, covers e x = true ↔
        (∃ reference, referenceOf e = some reference) ∧ e.columns = [column] := by
      intro e
      cases e <;> simp [x, covers, foreignKeyConstraintExists, referenceOf, TableConstraint.columns]
    have alike : ∀ e ∈ candidates (clearInlineConstraintFields table x columns),
        covers e x = true → ∀ e', covers e' e = covers e' x := by
      intro e mem covered e'
      obtain ⟨⟨reference, refers⟩, own⟩ := (covering e).mp covered
      obtain ⟨d, _, declared⟩ := foreign_key_candidate mem refers
      have named := (candidate_covered declared e).mp (candidate_covers_itself e mem)
      obtain rfl : d.name = column := by simpa using named.2.symm.trans own
      rw [Bool.eq_iff_iff, candidate_covered declared, covering]
    unfold Regenerated
    rw [mem_missing_iff ((covering x).mpr ⟨⟨_, rfl⟩, rfl⟩) alike, find_among_candidates covering]
    have left : (clearInlineConstraintFields table x columns).filterMap foreignKeyCandidate =
      (sparedColumns [column] columns).filterMap foreignKeyCandidate :=
      cleared_references [column] columns
    rw [left, find_declared covering]
  · have unread : ∀ e, covers e (.foreignKey name key refTable refColumns onDelete onUpdate
        strategy) = false := by
      intro e
      rcases key with _ | ⟨column, _ | ⟨other, more⟩⟩
      · rfl
      · exact absurd ⟨column, rfl⟩ single
      · rfl
    refine iff_of_false ?_ ?_
    · intro mem
      have self := candidate_covers_itself _ (missing_subset mem)
      rw [unread] at self
      cases self
    · intro again
      unfold Regenerated at again
      rcases key with _ | ⟨column, _ | ⟨other, more⟩⟩
      · exact again.2
      · exact single ⟨column, rfl⟩
      · exact again.2

end Regeneration

theorem regenerated_iff (table : String) (columns : List ColumnDef) (rest : List TableConstraint)
    (c : TableConstraint) :
    c ∈ missing covers (candidates (clearInlineConstraintFields table c columns)) rest ↔
      Regenerated columns rest c := by
  cases c with
  | primaryKey autoIncrement key strategy => exact key_regenerated columns rest table _ key _
  | unique name key strategy => exact unique_regenerated columns rest table name key _
  | foreignKey name key refTable refColumns onDelete onUpdate strategy =>
    exact foreign_key_regenerated columns rest table name key _ _ _ _ _
  | check name expr strategy =>
    exact iff_of_false (fun mem => check_not_candidate _ _ _ _ (missing_subset mem))
      (fun again => again.2)
  | index name key => exact index_regenerated columns rest table name key

/-! The table still normalises -/

theorem inline_ok_closed : ClosedUnderEdits InlineOk where
  attributes c d same held := by
    rwa [← inline_ok_declarations, same, inline_ok_declarations]
  renamed c new held := by
    refine ⟨?_, ?_⟩
    · intro fkSyntax declared
      obtain ⟨parts, parsed⟩ := held.foreignKey fkSyntax declared
      have same := parse_foreign_key_column new c.name fkSyntax
      rw [parsed] at same
      cases again : parseForeignKey new fkSyntax with
      | error e => rw [again] at same; cases same
      | ok parts' => exact ⟨parts', rfl⟩
    · have index := held.index
      rcases declared : c.index with _ | name | names | b
      · simp [declaredGroups]
      · simp [declaredGroups]
      · simpa [declared, declaredGroups] using index
      · cases b <;> simp [declaredGroups]
  primaryKey c held := ⟨held.foreignKey, held.index⟩
  foreignKey c held := ⟨by simp, held.index⟩
  unique c held := ⟨held.foreignKey, held.index⟩
  index c held := ⟨held.foreignKey, List.nodup_nil⟩
  uniqueName c name held := by
    rw [clear_unique_name_eq]
    exact ⟨held.foreignKey, held.index⟩
  indexName c name held := by
    rw [clear_index_name_eq]
    exact ⟨held.foreignKey, without_name_groups held.index⟩

def ownEntries (c : ColumnDef) : List (String × String) := (indexGroups c).map (·, c.name)

def Withdrawn (after before : List ColumnDef) : Prop :=
  List.Forall₂ (fun d c => (ownEntries d).Sublist (ownEntries c)) after before

theorem Withdrawn.entries {after before : List ColumnDef} (withdrawn : Withdrawn after before) :
    (indexEntries after).Sublist (indexEntries before) := by
  induction withdrawn with
  | nil => exact List.Sublist.refl _
  | cons own _ ih => exact own.append ih

theorem Withdrawn.refl (columns : List ColumnDef) : Withdrawn columns columns :=
  List.forall₂_same.mpr fun _ _ => List.Sublist.refl _

theorem Withdrawn.trans {first second third : List ColumnDef} (one : Withdrawn first second)
    (two : Withdrawn second third) : Withdrawn first third := by
  induction one generalizing third with
  | nil => exact two
  | cons own _ ih =>
    cases two with
    | cons own' rest' => exact .cons (own.trans own') (ih rest')

theorem withdrawn_first {f : ColumnDef → ColumnDef}
    (less : ∀ c, (ownEntries (f c)).Sublist (ownEntries c)) (column : String)
    (columns : List ColumnDef) : Withdrawn (mapFirstColumn column f columns) columns := by
  induction columns with
  | nil => exact .nil
  | cons c rest ih =>
    unfold mapFirstColumn
    split
    · exact .cons (less c) (Withdrawn.refl rest)
    · exact .cons (List.Sublist.refl _) ih

theorem withdrawn_field {f : ColumnDef → ColumnDef}
    (less : ∀ c, (ownEntries (f c)).Sublist (ownEntries c)) (key : List String)
    (columns : List ColumnDef) : Withdrawn (clearColumnsField f key columns) columns := by
  induction key generalizing columns with
  | nil => exact Withdrawn.refl columns
  | cons column key ih => exact (ih _).trans (withdrawn_first less column columns)

theorem withdrawn_map {f : ColumnDef → ColumnDef}
    (less : ∀ c, (ownEntries (f c)).Sublist (ownEntries c)) (columns : List ColumnDef) :
    Withdrawn (columns.map f) columns := by
  induction columns with
  | nil => exact .nil
  | cons c rest ih => exact .cons (less c) ih

theorem withdrawn_auto (table : String) (name : Option String) (columns : List ColumnDef) :
    Withdrawn (clearAutoNamedIndex table name columns) columns := by
  induction columns with
  | nil => exact .nil
  | cons c rest ih =>
    unfold clearAutoNamedIndex
    split
    · exact .cons (List.nil_sublist _) (Withdrawn.refl rest)
    · exact .cons (List.Sublist.refl _) ih

theorem without_name_sublist (columnName gone : String) (declared : Option StrOrBoolOrArray) :
    (declaredGroups columnName (withoutName gone declared)).Sublist
      (declaredGroups columnName declared) := by
  rcases declared with _ | name | names | b
  · exact List.Sublist.refl _
  · simp only [withoutName]
    split
    · exact List.nil_sublist _
    · exact List.Sublist.refl _
  · simp only [withoutName]
    split
    · exact List.nil_sublist _
    · exact List.filter_sublist
  · exact List.Sublist.refl _

theorem cleared_withdrawn (table : String) (constraint : TableConstraint)
    (columns : List ColumnDef) :
    Withdrawn (clearInlineConstraintFields table constraint columns) columns := by
  cases constraint with
  | primaryKey autoIncrement key strategy =>
    apply withdrawn_field
    exact fun c => List.Sublist.refl (ownEntries c)
  | foreignKey name key refTable refColumns onDelete onUpdate strategy =>
    apply withdrawn_field
    exact fun c => List.Sublist.refl (ownEntries c)
  | check name expr strategy => exact Withdrawn.refl columns
  | unique name key strategy =>
    simp only [clearInlineConstraintFields, clearUniqueFields]
    split
    · split
      · apply withdrawn_first
        exact fun c => List.Sublist.refl (ownEntries c)
      · exact Withdrawn.refl columns
    · apply withdrawn_map
      intro c
      rw [clear_unique_name_eq]
      exact List.Sublist.refl _
  | index name key =>
    simp only [clearInlineConstraintFields, clearIndexFields]
    have auto := withdrawn_auto table name columns
    split
    · split
      · refine Withdrawn.trans ?_ auto
        apply withdrawn_first
        exact fun c => List.nil_sublist (ownEntries c)
      · exact auto
    · refine Withdrawn.trans (withdrawn_map ?_ _) auto
      intro c
      rw [clear_index_name_eq]
      exact (without_name_sublist c.name _ c.index).map _

theorem cleared_normalizable {columns : List ColumnDef} (accepted : Normalizable columns)
    (table : String) (constraint : TableConstraint) :
    Normalizable (clearInlineConstraintFields table constraint columns) := by
  have each : ∀ c ∈ columns, InlineOk c := by
    have normal := normalize_of_normalizable (t := ⟨table, none, columns, []⟩) accepted
    exact normalize_inlines normal
  refine ⟨?_, (cleared_withdrawn table constraint columns).entries.nodup accepted.indexes⟩
  intro c mem
  exact (cleared_all inline_ok_closed table constraint each c mem).foreignKey

theorem replayed_normalizable {plans : List MigrationPlan} {schema : Schema}
    (replayed : schemaFromPlans plans = .ok schema) {t : TableDef} (mem : t ∈ schema)
    (nodup : t.columnNames.Nodup) : Normalizable t.columns := by
  have step : ∀ s a, (∀ t ∈ s, ∀ c ∈ t.columns, InlineOk c) → True →
      (applyAction s a).error = none → ∀ t ∈ (applyAction s a).state, ∀ c ∈ t.columns, InlineOk c := by
    intro s a held _ ok
    refine action_columns inline_ok_closed held ?_
    cases a with
    | createTable table columns constraints =>
      intro c mem
      simp only [applyAction, createTable] at ok
      split at ok
      · cases ok
      · cases normal : (TableDef.mk table none columns constraints).normalize with
        | error e => simp [normal, Outcome.fail] at ok
        | ok t => exact normalize_inlines normal c mem
    | addColumn table column fillWith =>
      intro c mem
      obtain rfl := List.mem_singleton.mp mem
      rw [edit_applies rfl] at ok
      cases found : tableAt s table with
      | none => exact absurd ok (on_table_absent found _)
      | some t =>
        have done := (on_table_error found (addColumnTo table c)).symm.trans ok
        by_cases present : c.name ∈ t.columnNames
        · simp [add_column_present present, Outcome.fail] at done
        · by_cases accepted : Normalizable (t.columns ++ [c])
          · have normal := normalize_of_normalizable (t := ⟨table, none, _, []⟩) accepted
            exact normalize_inlines normal c (by simp)
          · exact absurd done (add_column_refused table present accepted).2
    | _ => simp [newColumns]
  rw [schema_from_plans_actions] at replayed
  have along : ∀ s actions, Along (fun _ _ => True) s actions := by
    intro s actions
    induction actions generalizing s with
    | nil => trivial
    | cons a actions ih => exact ⟨trivial, ih _⟩
  have held := actions_preserve step (by simp) (along [] _) replayed t mem
  exact normalizable_of_normalize (normalize_eq nodup held)

/-! The removal and the replacement -/

def StaysRemoved (schema : Schema) (table : String) (c : TableConstraint) : Prop :=
  ∃ t normalized, tableAt schema table = some t ∧ t.normalize = .ok normalized ∧
    c ∉ normalized.constraints

theorem stays_removed_iff {schema : Schema} {table : String} {t : TableDef}
    (found : tableAt schema table = some t) {columns : List ColumnDef} {c : TableConstraint}
    (accepted : Normalizable columns)
    (left : t.columns = clearInlineConstraintFields table c columns) :
    StaysRemoved schema table c ↔
      c ∉ t.constraints ∧ ¬ Regenerated columns t.constraints c := by
  have still := cleared_normalizable accepted table c
  rw [← left] at still
  have normal := normalize_of_normalizable still
  have split : c ∈ promoted t ↔ c ∈ t.constraints ∨ Regenerated columns t.constraints c := by
    rw [promoted, append_missing_eq, List.mem_append, left, regenerated_iff]
  rw [← not_or, ← split]
  constructor
  · rintro ⟨t', normalized, found', normal', gone⟩
    obtain rfl := Option.some.inj (found.symm.trans found')
    obtain rfl := Except.ok.inj (normal.symm.trans normal')
    exact gone
  · intro gone
    exact ⟨t, _, found, normal, gone⟩

theorem regenerated_congr {columns : List ColumnDef} {rest rest' : List TableConstraint}
    (same : ∀ e, e ∈ rest ↔ e ∈ rest') (c : TableConstraint) :
    Regenerated columns rest c ↔ Regenerated columns rest' c := by
  have covered : Covered covers rest c ↔ Covered covers rest' c := by simp [Covered, same]
  unfold Regenerated
  rw [covered]

theorem mem_erase_once {c : TableConstraint} {constraints : List TableConstraint}
    (once : constraints.count c = 1) (e : TableConstraint) :
    e ∈ constraints.erase c ↔ e ∈ constraints.filter (· ≠ c) := by
  rw [List.mem_filter, decide_eq_true_eq]
  by_cases same : e = c
  · subst same
    have gone : (constraints.erase e).count e = constraints.count e - 1 := List.count_erase_self
    have absent : e ∉ constraints.erase e := List.count_eq_zero.mp (by omega)
    simp [absent]
  · simp [List.mem_erase_of_ne same, same]

theorem mem_replace_first_self {c new : TableConstraint} {constraints : List TableConstraint}
    (other : new ≠ c) (mem : c ∈ constraints) :
    c ∉ replaceFirst c new constraints ↔ constraints.count c = 1 := by
  have held := List.count_pos_iff.mpr mem
  have left : (constraints.erase c).count c = constraints.count c - 1 := List.count_erase_self
  rw [replace_first_mem mem, ← List.count_pos_iff]
  constructor
  · intro gone
    have none_left := (not_or.mp gone).2
    omega
  · intro once
    exact not_or.mpr ⟨Ne.symm other, by omega⟩

theorem removed_stays_removed_iff {plans : List MigrationPlan} {schema : Schema}
    (replayed : schemaFromPlans plans = .ok schema) {table : String} {t : TableDef}
    (found : tableAt schema table = some t) (c : TableConstraint) :
    (t.columnNames.Nodup → Normalizable t.columns) ∧
    (Normalizable t.columns →
      (StaysRemoved (applyAction schema (.removeConstraint table c)).state table c ↔
        ¬ Regenerated t.columns (t.constraints.filter (· ≠ c)) c) ∧
      ∀ new ≠ c, (applyAction schema (.replaceConstraint table c new)).error = none →
        (StaysRemoved (applyAction schema (.replaceConstraint table c new)).state table c ↔
          t.constraints.count c = 1 ∧
            ¬ Regenerated t.columns (new :: t.constraints.filter (· ≠ c)) c)) := by
  obtain ⟨here, named⟩ := table_at_name found
  refine ⟨replayed_normalizable replayed here, fun accepted => ⟨?_, ?_⟩⟩
  · have left := on_table_at found (f := removeConstraintFrom table c) named
    have own := congrFun left table
    rw [Function.update_self] at own
    show StaysRemoved (onTable table (removeConstraintFrom table c) schema).state table c ↔ _
    rw [stays_removed_iff own accepted rfl]
    simp [removeConstraintFrom, Outcome.ok]
  · intro new other ok
    have error := (on_table_error found (replaceConstraintIn table c new)).symm.trans ok
    have held : c ∈ t.constraints := by
      by_contra absent
      simp [replaceConstraintIn, absent, Outcome.fail] at error
    have done : replaceConstraintIn table c new t = .ok { t with
        constraints := replaceFirst c new t.constraints
        columns := clearInlineConstraintFields table c t.columns } := if_pos held
    have left := on_table_at found (f := replaceConstraintIn table c new) (by rw [done]; exact named)
    have own := congrFun left table
    rw [Function.update_self, done] at own
    show StaysRemoved (onTable table (replaceConstraintIn table c new) schema).state table c ↔ _
    rw [stays_removed_iff own accepted rfl]
    show c ∉ replaceFirst c new t.constraints ∧ _ ↔ _
    rw [mem_replace_first_self other held]
    refine and_congr_right fun once => not_congr (regenerated_congr ?_ c)
    intro e
    show e ∈ replaceFirst c new t.constraints ↔ _
    rw [replace_first_mem held, List.mem_cons, mem_erase_once once]

/-! A seat that is unique twice -/

def rowUnique : TableConstraint := .unique none ["row"] .default

/-- Dropping the place leaves the two unique constraints of the seat equal. -/
def seatPlans : List MigrationPlan :=
  [⟨"", none, none, 1, [.createTable "seat"
      [.new "row" (.simple .integer) false, .new "place" (.simple .integer) false]
      [rowUnique, .unique none ["row", "place"] .default],
    .deleteColumn "seat" "place"]⟩]

def seatSchema : Schema :=
  [⟨"seat", none, [.new "row" (.simple .integer) false], [rowUnique, rowUnique]⟩]

theorem second_copy_stays :
    ¬ (schemaFromPlans seatPlans = .ok seatSchema →
      (applyAction seatSchema (.replaceConstraint "seat" rowUnique
        (.unique (some "uq_row") ["row"] .default))).error = none →
      StaysRemoved (applyAction seatSchema (.replaceConstraint "seat" rowUnique
        (.unique (some "uq_row") ["row"] .default))).state "seat" rowUnique) := by
  intro stays
  obtain ⟨t, normalized, found, normal, gone⟩ := stays (by decide) (by decide)
  have kept : rowUnique ∈ t.constraints := by
    obtain rfl := Option.some.inj (found.symm.trans (by decide : _ = some
      (⟨"seat", none, [.new "row" (.simple .integer) false],
        [.unique (some "uq_row") ["row"] .default, rowUnique]⟩ : TableDef)))
    decide
  rw [normalize_value normal] at gone
  exact gone (mem_append_missing_left kept)

theorem removed_unique_stays :
    StaysRemoved (applyAction seatSchema (.removeConstraint "seat" rowUnique)).state "seat"
      rowUnique := by
  have replayed : schemaFromPlans seatPlans = .ok seatSchema := by decide
  have found : tableAt seatSchema "seat" = some ⟨"seat", none,
    [.new "row" (.simple .integer) false], [rowUnique, rowUnique]⟩ := rfl
  have distinct := removed_stays_removed_iff replayed found rowUnique
  refine ((distinct.2 (distinct.1 (by decide))).1).mpr ?_
  rintro ⟨_, _, _, g, _, members⟩
  cases members

end Vespertide
