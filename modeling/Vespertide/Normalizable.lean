import Vespertide.Promotion

/-!
The tables that normalisation accepts. A column may carry any name, even one that
another column carries too: what is refused is an inline reference that does not
parse, and a column name that joins one index twice.
-/
namespace Vespertide
open AppendMissing

def indexEntries (columns : List ColumnDef) : List (String × String) :=
  columns.flatMap fun c => (declaredGroups c.name c.index).map (·, c.name)

structure Normalizable (columns : List ColumnDef) : Prop where
  references : ∀ c ∈ columns, ∀ fkSyntax, c.foreignKey = some fkSyntax → ∃ parts,
    parseForeignKey c.name fkSyntax = .ok parts
  indexes : (indexEntries columns).Nodup

/-! The tracker -/

def IndexState.Tracks (s : IndexState) (entries : List (String × String)) : Prop :=
  ∀ g column, column ∈ (s.tracker.lookup g).getD [] ↔ (g, column) ∈ entries

variable {s : IndexState} {entries : List (String × String)}

theorem push_index_tracks (tracks : s.Tracks entries) (columnName g : String) :
    (pushIndex columnName s g).Tracks (entries ++ [(g, columnName)]) := by
  intro g' column
  simp only [pushIndex, lookup_append_to_group, List.mem_append, List.mem_singleton,
    Prod.mk.injEq]
  split
  · rename_i here
    subst here
    simp [tracks g' column]
  · rename_i other
    simp [tracks g' column, other]

theorem push_indexes_track (tracks : s.Tracks entries) (columnName : String)
    (names : List String) :
    (names.foldl (pushIndex columnName) s).Tracks (entries ++ names.map (·, columnName)) := by
  induction names generalizing s entries with
  | nil => simpa using tracks
  | cons g names ih =>
    have next := ih (push_index_tracks tracks columnName g)
    rwa [List.append_assoc] at next

theorem push_checked_index (tracks : s.Tracks entries) (columnName g : String) :
    (pushCheckedIndex s g columnName).toOption =
      if (g, columnName) ∈ entries then none else some (pushIndex columnName s g) := by
  unfold pushCheckedIndex
  simp only [tracks g columnName]
  split <;> rfl

theorem push_index_array_iff {columnName : String} (tracks : s.Tracks entries)
    (nodup : entries.Nodup) {seenInArray : List String} (seen : ∀ g ∈ seenInArray, (g, columnName) ∈ entries)
    (names : List String) :
    (pushIndexArray columnName seenInArray names s).toOption =
      if (entries ++ names.map (·, columnName)).Nodup
      then some (names.foldl (pushIndex columnName) s) else none := by
  induction names generalizing s entries seenInArray with
  | nil => simp [pushIndexArray, nodup, Except.toOption]
  | cons g names ih =>
    have pushed := push_checked_index tracks columnName g
    have shift : entries ++ (g :: names).map (·, columnName) =
        entries ++ [(g, columnName)] ++ names.map (·, columnName) := by simp
    rw [shift]
    unfold pushIndexArray
    by_cases held : (g, columnName) ∈ entries
    · have twice : ¬ (entries ++ [(g, columnName)] ++ names.map (·, columnName)).Nodup := by
        intro all
        have front := (List.nodup_append.mp all).1
        exact (List.nodup_append.mp front).2.2 _ held _ (by simp) rfl
      rw [if_neg twice]
      rw [if_pos held] at pushed
      split
      · rfl
      · cases checked : pushCheckedIndex s g columnName with
        | error e => rfl
        | ok s' => rw [checked] at pushed; cases pushed
    · have unseen : g ∉ seenInArray := fun mem => held (seen g mem)
      rw [if_neg held] at pushed
      rw [if_neg unseen]
      cases checked : pushCheckedIndex s g columnName with
      | error e => rw [checked] at pushed; cases pushed
      | ok s' =>
        rw [checked] at pushed
        obtain rfl := Option.some.inj pushed
        have fresh : (entries ++ [(g, columnName)]).Nodup :=
          List.nodup_append.mpr ⟨nodup, by simp, by grind⟩
        have grown : ∀ g' ∈ g :: seenInArray, (g', columnName) ∈ entries ++ [(g, columnName)] := by
          intro g' mem
          rcases List.mem_cons.mp mem with rfl | later
          · simp
          · exact List.mem_append_left _ (seen g' later)
        exact ih (push_index_tracks tracks columnName g) fresh grown

theorem collect_column_indexes_iff (tracks : s.Tracks entries) (nodup : entries.Nodup)
    (columnName : String) (indexVal : StrOrBoolOrArray) :
    (collectColumnIndexes columnName indexVal s).toOption =
      if (entries ++ (declaredGroups columnName (some indexVal)).map (·, columnName)).Nodup
      then some ((declaredGroups columnName (some indexVal)).foldl (pushIndex columnName) s)
      else none := by
  have single : ∀ g, (pushCheckedIndex s g columnName).toOption =
      if (entries ++ [(g, columnName)]).Nodup then some (pushIndex columnName s g) else none := by
    intro g
    rw [push_checked_index tracks columnName g]
    by_cases held : (g, columnName) ∈ entries <;> simp [List.nodup_append, nodup, held]
  cases indexVal with
  | str name => exact single name
  | array names => exact push_index_array_iff tracks nodup (by simp) names
  | bool b =>
    cases b with
    | true => exact single (autoPrefix ++ columnName)
    | false => simp [collectColumnIndexes, declaredGroups, nodup, Except.toOption]

theorem collect_index_groups_iff (tracks : s.Tracks entries) (nodup : entries.Nodup)
    (columns : List ColumnDef) :
    (collectIndexGroupsFrom columns s).toOption.map (·.grouped) =
      if (entries ++ indexEntries columns).Nodup
      then some (collectGroups (fun c => declaredGroups c.name c.index) columns s.grouped)
      else none := by
  induction columns generalizing s entries with
  | nil => simp [collectIndexGroupsFrom, indexEntries, collectGroups, nodup, Except.toOption]
  | cons c columns ih =>
    have shift : entries ++ indexEntries (c :: columns) =
        (entries ++ (declaredGroups c.name c.index).map (·, c.name)) ++ indexEntries columns := by
      simp [indexEntries]
    rw [shift]
    unfold collectIndexGroupsFrom
    cases declared : c.index with
    | none => simpa [declaredGroups, declared, collectGroups] using ih tracks nodup
    | some indexVal =>
      dsimp only
      have collected := collect_column_indexes_iff tracks nodup c.name indexVal
      by_cases own : (entries ++ (declaredGroups c.name (some indexVal)).map (·, c.name)).Nodup
      · rw [if_pos own] at collected
        cases done : collectColumnIndexes c.name indexVal s with
        | error e => rw [done] at collected; cases collected
        | ok s' =>
          rw [done] at collected
          obtain rfl := Option.some.inj collected
          have next := ih (push_indexes_track tracks c.name _) own
          simp only [next, push_indexes_grouped]
          simp [collectGroups, declared]
      · rw [if_neg own] at collected
        have all : ¬ (entries ++ (declaredGroups c.name (some indexVal)).map (·, c.name) ++
            indexEntries columns).Nodup := fun nodup => own (List.nodup_append.mp nodup).1
        rw [if_neg all]
        cases done : collectColumnIndexes c.name indexVal s with
        | error e => rfl
        | ok s' => rw [done] at collected; cases collected

/-! Normalisation -/

theorem normalize_of_normalizable {t : TableDef} (accepted : Normalizable t.columns) :
    t.normalize = .ok { t with constraints := promoted t } := by
  have unused : IndexState.Tracks ⟨⟨[], []⟩, []⟩ [] := by simp [IndexState.Tracks]
  have collected := collect_index_groups_iff unused List.nodup_nil t.columns
  rw [List.nil_append, if_pos accepted.indexes] at collected
  have indexes : ∀ constraints, addIndexConstraints t.columns constraints =
      .ok (appendMissing covers (indexCandidates t.columns) constraints) := by
    intro constraints
    unfold addIndexConstraints collectIndexGroups
    cases done : collectIndexGroupsFrom t.columns ⟨⟨[], []⟩, []⟩ with
    | error e => rw [done] at collected; cases collected
    | ok s' =>
      rw [done] at collected
      have same := Option.some.inj collected
      simp only [Except.map, same]
      exact index_groups_pass (collect_groups_recorded _ t.columns start_recorded) constraints
  simp only [TableDef.normalize, primary_key_pass, unique_pass, bind, Except.bind, pure,
    Except.pure, foreign_key_pass accepted.references, indexes]
  simp only [promoted, candidates, append_missing_append]

theorem normalizable_of_normalize {t t' : TableDef} (ok : t.normalize = .ok t') :
    Normalizable t.columns := by
  refine ⟨fun c mem => (normalize_inlines ok c mem).foreignKey, ?_⟩
  have unused : IndexState.Tracks ⟨⟨[], []⟩, []⟩ [] := by simp [IndexState.Tracks]
  have collected := collect_index_groups_iff unused List.nodup_nil t.columns
  by_contra twice
  rw [List.nil_append, if_neg twice] at collected
  simp only [TableDef.normalize, primary_key_pass, unique_pass, bind, Except.bind, pure,
    Except.pure, foreign_key_pass fun c mem => (normalize_inlines ok c mem).foreignKey] at ok
  unfold addIndexConstraints collectIndexGroups at ok
  cases done : collectIndexGroupsFrom t.columns ⟨⟨[], []⟩, []⟩ with
  | error e => simp [done, Except.map] at ok
  | ok s' => rw [done] at collected; cases collected

theorem normalize_value {t t' : TableDef} (ok : t.normalize = .ok t') :
    t' = { t with constraints := promoted t } :=
  Except.ok.inj (ok.symm.trans (normalize_of_normalizable (normalizable_of_normalize ok)))

end Vespertide
