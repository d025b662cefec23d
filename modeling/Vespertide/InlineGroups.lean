import Vespertide.Promotion

/-!
The groups that the columns of a table declare themselves into. A group is a scan
of the columns for its name, so which constraints normalisation reads back can be
said of the declarations alone.
-/
namespace Vespertide
open AppendMissing

/-- The columns that declare themselves into a group, one for each time they do. -/
def membersOf (declared : ColumnDef → List String) (group : String) (columns : List ColumnDef) :
    List String :=
  columns.flatMap fun c => ((declared c).filter (· = group)).map fun _ => c.name

def GroupState.members (s : GroupState) (group : String) : List String :=
  (s.groups.lookup group).getD []

def GroupState.Indexed (s : GroupState) : Prop :=
  ∀ g, (g ∈ s.order ↔ s.members g ≠ []) ∧ (g ∈ s.order ↔ s.groups.lookup g ≠ none)

theorem push_members (s : GroupState) (g column g' : String) :
    (pushGroupedColumn s g column).members g' =
      if g' = g then s.members g ++ [column] else s.members g' := by
  simp only [GroupState.members, pushGroupedColumn, lookup_append_to_group]
  split <;> rfl

theorem push_indexed {s : GroupState} (indexed : s.Indexed) (g column : String) :
    (pushGroupedColumn s g column).Indexed := by
  intro g'
  have order : g' ∈ (pushGroupedColumn s g column).order ↔ g' = g ∨ g' ∈ s.order := by
    unfold pushGroupedColumn
    by_cases sighted : s.groups.lookup g = none
    · simp [sighted, or_comm]
    · have known : g ∈ s.order := (indexed g).2.mpr sighted
      simp only [sighted, ↓reduceIte]
      constructor
      · exact Or.inr
      · rintro (rfl | old)
        · exact known
        · exact old
  rw [order, push_members]
  simp only [pushGroupedColumn, lookup_append_to_group]
  by_cases same : g' = g
  · simp [same]
  · simp only [same, false_or, ↓reduceIte]
    exact indexed g'

theorem pushes_members (s : GroupState) (names : List String) (column g : String) :
    (names.foldl (fun s group => pushGroupedColumn s group column) s).members g =
      s.members g ++ (names.filter (· = g)).map fun _ => column := by
  induction names generalizing s with
  | nil => simp
  | cons name names ih =>
    rw [List.foldl_cons, ih, push_members]
    by_cases same : name = g
    · simp [same]
    · simp [same, Ne.symm same]

theorem collect_members (declared : ColumnDef → List String) (columns : List ColumnDef)
    (s : GroupState) (g : String) :
    (collectGroups declared columns s).members g = s.members g ++ membersOf declared g columns := by
  induction columns generalizing s with
  | nil => simp [collectGroups, membersOf]
  | cons c columns ih =>
    have step : collectGroups declared (c :: columns) s = collectGroups declared columns
        ((declared c).foldl (fun s group => pushGroupedColumn s group c.name) s) := rfl
    rw [step, ih, pushes_members, List.append_assoc]
    rfl

theorem collect_indexed (declared : ColumnDef → List String) (columns : List ColumnDef)
    {s : GroupState} (indexed : s.Indexed) : (collectGroups declared columns s).Indexed := by
  unfold collectGroups
  apply List.foldlRecOn columns _ indexed
  intro s indexed c _
  apply List.foldlRecOn (declared c) _ indexed
  intro s indexed g _
  exact push_indexed indexed g c.name

theorem start_indexed : GroupState.Indexed ⟨[], []⟩ := by
  intro g
  simp [GroupState.members]

theorem mem_group_members (declared : ColumnDef → List String) (columns : List ColumnDef)
    (g : String) (members : List String) :
    (g, members) ∈ groupMembers (collectGroups declared columns ⟨[], []⟩) ↔
      members ≠ [] ∧ members = membersOf declared g columns := by
  have indexed := collect_indexed declared columns start_indexed g
  have scanned := collect_members declared columns ⟨[], []⟩ g
  have none_yet : GroupState.members ⟨[], []⟩ g = [] := rfl
  rw [none_yet, List.nil_append] at scanned
  simp only [groupMembers, List.mem_filterMap, Option.map_eq_some_iff, Prod.mk.injEq]
  constructor
  · rintro ⟨g', ordered, members', held, rfl, rfl⟩
    have read : (collectGroups declared columns ⟨[], []⟩).members g' = members' := by
      simp [GroupState.members, held]
    rw [← scanned, read]
    exact ⟨read ▸ indexed.1.mp ordered, rfl⟩
  · rintro ⟨nonempty, rfl⟩
    rw [← scanned] at nonempty ⊢
    have ordered := indexed.1.mpr nonempty
    obtain ⟨members', held⟩ := Option.ne_none_iff_exists'.mp (indexed.2.mp ordered)
    exact ⟨g, ordered, members', held, rfl, by simp [GroupState.members, held]⟩

/-! The constraints read back -/

def uniqueGroups (c : ColumnDef) : List String := declaredGroups c.name c.unique

def indexGroups (c : ColumnDef) : List String := declaredGroups c.name c.index

theorem generated_name_some {g name : String}
    (generated : generatedNameToConstraintName g = some name) : g = name := by
  unfold generatedNameToConstraintName at generated
  split at generated
  · cases generated
  · exact Option.some.inj generated

theorem mem_unique_candidates (columns : List ColumnDef) (x : TableConstraint) :
    x ∈ uniqueCandidates columns ↔ ∃ g, membersOf uniqueGroups g columns ≠ [] ∧
      x = .unique (generatedNameToConstraintName g) (membersOf uniqueGroups g columns) .default := by
  simp only [uniqueCandidates, List.mem_map, Prod.exists]
  constructor
  · rintro ⟨g, members, mem, rfl⟩
    obtain ⟨nonempty, rfl⟩ := (mem_group_members _ columns g members).mp mem
    exact ⟨g, nonempty, rfl⟩
  · rintro ⟨g, nonempty, rfl⟩
    exact ⟨g, _, (mem_group_members _ columns g _).mpr ⟨nonempty, rfl⟩, rfl⟩

theorem mem_index_candidates (columns : List ColumnDef) (x : TableConstraint) :
    x ∈ indexCandidates columns ↔ ∃ g, membersOf indexGroups g columns ≠ [] ∧
      x = .index (generatedNameToConstraintName g) (membersOf indexGroups g columns) := by
  simp only [indexCandidates, List.mem_map, Prod.exists]
  constructor
  · rintro ⟨g, members, mem, rfl⟩
    obtain ⟨nonempty, rfl⟩ := (mem_group_members _ columns g members).mp mem
    exact ⟨g, nonempty, rfl⟩
  · rintro ⟨g, nonempty, rfl⟩
    exact ⟨g, _, (mem_group_members _ columns g _).mpr ⟨nonempty, rfl⟩, rfl⟩

theorem members_of_member {declared : ColumnDef → List String} {g : String}
    {columns : List ColumnDef} {name : String} :
    name ∈ membersOf declared g columns ↔ ∃ c ∈ columns, g ∈ declared c ∧ c.name = name := by
  simp only [membersOf, List.mem_flatMap, List.mem_map, List.mem_filter, decide_eq_true_eq]
  constructor
  · rintro ⟨c, mem, g', ⟨declares, rfl⟩, named⟩
    exact ⟨c, mem, declares, named⟩
  · rintro ⟨c, mem, declares, named⟩
    exact ⟨c, mem, g, ⟨declares, rfl⟩, named⟩

end Vespertide
