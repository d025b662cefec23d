import Vespertide.InlineGroups
import Vespertide.Normalizable

/-!
What normalisation makes of the inline declarations. Doing it twice changes
nothing more. The explicit constraints stay in front, and a declaration is realised
unless an explicit constraint that passes for it says something else, or a column
lists a unique group twice.
-/
namespace Vespertide
open AppendMissing

/-- Normalising a normalised table leaves it as it is. -/
theorem normalize_idempotent {t t' : TableDef} (ok : t.normalize = .ok t') :
    t'.normalize = .ok t' := by
  have accepted := normalizable_of_normalize ok
  obtain rfl := normalize_value ok
  have again : promoted { t with constraints := promoted t } = promoted t :=
    append_missing_idempotent candidate_covers_itself t.constraints
  rw [normalize_of_normalizable (t := { t with constraints := promoted t }) accepted, again]

/-! The groups -/

def declaringColumns (declared : ColumnDef → List String) (group : String)
    (columns : List ColumnDef) : List String :=
  (columns.filter (group ∈ declared ·)).map (·.name)

/-- What the constraints of one kind have in common: `kind name columns c` says that
    `c` is one of them, with that name and those columns. -/
structure GroupKind (kind : Option String → List String → TableConstraint → Prop)
    (declared : ColumnDef → List String) : Prop where
  candidate : ∀ columns name cols x, kind name cols x → x ∈ candidates columns →
    ∃ g, generatedNameToConstraintName g = name ∧ membersOf declared g columns = cols
  of_group : ∀ columns g, membersOf declared g columns ≠ [] →
    ∃ x ∈ candidates columns, kind (generatedNameToConstraintName g) (membersOf declared g columns) x
  covered : ∀ name cols x e, kind name cols x →
    (covers e x = true ↔ ∃ cols', kind name cols' e ∧ (name = none → cols' = cols))

theorem unique_kind : GroupKind (fun name cols c => ∃ strategy, c = .unique name cols strategy)
    uniqueGroups where
  candidate := by
    rintro columns name cols _ ⟨strategy, rfl⟩ mem
    simp only [candidates, List.mem_append] at mem
    rcases mem with ((key | unique) | foreign) | index
    · simp only [primaryKeyCandidates] at key
      split at key <;> simp at key
    · obtain ⟨g, _, same⟩ := (mem_unique_candidates columns _).mp unique
      obtain ⟨rfl, rfl, _⟩ := TableConstraint.unique.inj same
      exact ⟨g, rfl, rfl⟩
    · obtain ⟨c, _, found⟩ := List.mem_filterMap.mp foreign
      simp only [foreign_key_candidate_eq, Option.map_eq_some_iff] at found
      obtain ⟨_, _, same⟩ := found
      cases same
    · obtain ⟨g, _, same⟩ := (mem_index_candidates columns _).mp index
      cases same
  of_group := by
    intro columns g nonempty
    refine ⟨_, ?_, .default, rfl⟩
    simp only [candidates, List.mem_append]
    exact .inl (.inl (.inr ((mem_unique_candidates columns _).mpr ⟨g, nonempty, rfl⟩)))
  covered := by
    rintro name cols _ e ⟨strategy, rfl⟩
    cases e with
    | unique name' cols' strategy' =>
      cases name <;> cases name' <;> simp [covers, uniqueConstraintExists, eq_comm]
    | _ => simp [covers, uniqueConstraintExists]

theorem index_kind : GroupKind (fun name cols c => c = .index name cols) indexGroups where
  candidate := by
    rintro columns name cols _ rfl mem
    simp only [candidates, List.mem_append] at mem
    rcases mem with ((key | unique) | foreign) | index
    · simp only [primaryKeyCandidates] at key
      split at key <;> simp at key
    · obtain ⟨g, _, same⟩ := (mem_unique_candidates columns _).mp unique
      cases same
    · obtain ⟨c, _, found⟩ := List.mem_filterMap.mp foreign
      simp only [foreign_key_candidate_eq, Option.map_eq_some_iff] at found
      obtain ⟨_, _, same⟩ := found
      cases same
    · obtain ⟨g, _, same⟩ := (mem_index_candidates columns _).mp index
      obtain ⟨rfl, rfl⟩ := TableConstraint.index.inj same
      exact ⟨g, rfl, rfl⟩
  of_group := by
    intro columns g nonempty
    refine ⟨_, ?_, rfl⟩
    simp only [candidates, List.mem_append]
    exact .inr ((mem_index_candidates columns _).mpr ⟨g, nonempty, rfl⟩)
  covered := by
    rintro name cols _ e rfl
    cases e with
    | index name' cols' => cases name <;> cases name' <;> simp [covers, indexConstraintExists, eq_comm]
    | _ => simp [covers, indexConstraintExists]

theorem mem_promoted_iff {t : TableDef} {c : TableConstraint} : c ∈ promoted t ↔
    c ∈ t.constraints ∨ c ∈ missing covers (candidates t.columns) t.constraints := by
  rw [promoted, append_missing_eq, List.mem_append]

section Groups
variable {kind : Option String → List String → TableConstraint → Prop}
  {declared : ColumnDef → List String} (of_kind : GroupKind kind declared) {t : TableDef}
  {g : String} {cols : List String}
include of_kind

/-- A group has a constraint with certain columns just when an explicit one is there, or no
    explicit one passes for it by name and a group of its name has these columns. -/
theorem group_constraint_iff (nonempty : cols ≠ []) :
    (∃ c ∈ promoted t, kind (generatedNameToConstraintName g) cols c) ↔
      (∃ c ∈ t.constraints, kind (generatedNameToConstraintName g) cols c) ∨
      ((generatedNameToConstraintName g ≠ none → ∀ c ∈ t.constraints, ∀ cols',
          ¬ kind (generatedNameToConstraintName g) cols' c) ∧
        ∃ g', generatedNameToConstraintName g' = generatedNameToConstraintName g ∧
          membersOf declared g' t.columns = cols) := by
  constructor
  · rintro ⟨c, mem, of_name⟩
    rcases mem_promoted_iff.mp mem with explicit | fresh
    · exact .inl ⟨c, explicit, of_name⟩
    · refine .inr ⟨fun named e e_mem cols' e_kind => ?_,
        of_kind.candidate t.columns _ cols c of_name (missing_subset fresh)⟩
      refine missing_uncovered fresh ⟨e, e_mem, ?_⟩
      exact (of_kind.covered _ cols c e of_name).mpr ⟨cols', e_kind, fun unnamed => absurd unnamed named⟩
  · rintro (⟨c, explicit, of_name⟩ | ⟨none_passes, g', same_name, members⟩)
    · exact ⟨c, mem_append_missing_left explicit, of_name⟩
    · obtain ⟨x, x_mem, x_kind⟩ := of_kind.of_group t.columns g' (members ▸ nonempty)
      rw [same_name, members] at x_kind
      obtain ⟨e, e_mem, e_covers⟩ := @append_missing_covers _ _ _ candidate_covers_itself
        t.constraints x x_mem
      obtain ⟨cols', e_kind, unnamed_same⟩ := (of_kind.covered _ cols x e x_kind).mp e_covers
      refine ⟨e, e_mem, ?_⟩
      cases named : generatedNameToConstraintName g with
      | none =>
        rw [named] at e_kind
        exact unnamed_same named ▸ e_kind
      | some n =>
        rw [named] at e_kind same_name none_passes
        have e_fresh := (mem_promoted_iff.mp e_mem).resolve_left fun explicit =>
          none_passes (Option.some_ne_none n) e explicit cols' e_kind
        obtain ⟨g'', own_name, own_members⟩ :=
          of_kind.candidate t.columns _ cols' e e_kind (missing_subset e_fresh)
        have same : g'' = g' := (generated_name_some own_name).trans (generated_name_some same_name).symm
        rw [same, members] at own_members
        exact own_members ▸ e_kind

end Groups

theorem members_of_once {declared : ColumnDef → List String} {g : String} {columns : List ColumnDef}
    (once : ∀ c ∈ columns, (declared c).count g ≤ 1) :
    membersOf declared g columns = declaringColumns declared g columns := by
  induction columns with
  | nil => rfl
  | cons c columns ih =>
    obtain ⟨first, rest⟩ := List.forall_mem_cons.mp once
    have tail := ih rest
    simp only [membersOf, declaringColumns, List.flatMap_cons] at tail ⊢
    rw [tail, List.filter_eq]
    by_cases joins : g ∈ declared c
    · have exact_once : (declared c).count g = 1 :=
        le_antisymm first (List.count_pos_iff.mpr joins)
      rw [exact_once, List.filter_cons_of_pos (by simpa using joins)]
      rfl
    · rw [List.count_eq_zero.mpr joins, List.filter_cons_of_neg (by simpa using joins)]
      rfl

theorem members_nodup_once {declared : ColumnDef → List String} {g : String}
    {columns : List ColumnDef} (nodup : (membersOf declared g columns).Nodup) :
    ∀ c ∈ columns, (declared c).count g ≤ 1 := by
  intro c mem
  have part : List.Sublist (((declared c).filter (· = g)).map fun _ => c.name)
      (membersOf declared g columns) := by
    rw [membersOf, List.flatMap]
    exact List.sublist_flatten_of_mem (List.mem_map_of_mem (f := fun c =>
      ((declared c).filter (· = g)).map fun _ => c.name) mem)
  have single := part.nodup nodup
  rw [List.filter_eq, List.map_replicate, List.nodup_replicate] at single
  exact single

theorem declaring_nodup {declared : ColumnDef → List String} {g : String}
    {columns : List ColumnDef} (nodup : (columns.map (·.name)).Nodup) :
    (declaringColumns declared g columns).Nodup :=
  nodup.sublist (List.filter_sublist.map _)

theorem members_declaring_iff {declared : ColumnDef → List String} {g g' : String}
    {columns : List ColumnDef} (nodup : (columns.map (·.name)).Nodup) :
    membersOf declared g' columns = declaringColumns declared g columns ↔
      (∀ c ∈ columns, (declared c).count g' ≤ 1) ∧
        declaringColumns declared g' columns = declaringColumns declared g columns := by
  constructor
  · intro same
    have once := members_nodup_once (same ▸ declaring_nodup nodup)
    exact ⟨once, (members_of_once once).symm.trans same⟩
  · rintro ⟨once, same⟩
    exact (members_of_once once).trans same

/-- No index lists a column twice where the inline declarations are accepted. -/
theorem index_groups_once {columns : List ColumnDef} (accepted : Normalizable columns) (g : String) :
    ∀ c ∈ columns, (indexGroups c).count g ≤ 1 := by
  intro c mem
  have part : List.Sublist ((indexGroups c).map (·, c.name)) (indexEntries columns) := by
    rw [indexEntries, List.flatMap]
    exact List.sublist_flatten_of_mem (List.mem_map_of_mem (f := fun c =>
      (declaredGroups c.name c.index).map (·, c.name)) mem)
  exact List.nodup_iff_count_le_one.mp (List.Nodup.of_map _ (part.nodup accepted.indexes)) g

/-! The declarations as a whole -/

/-- The explicit constraints stay in front, and every inline declaration is realised. -/
structure Realised (t t' : TableDef) : Prop where
  explicit : ∃ added, t'.constraints = t.constraints ++ added
  columns : t'.columns = t.columns
  keys : ∀ c ∈ t.columns, c.declaresKey = true →
    ∃ d ∈ t'.constraints, d.isPrimaryKey = true ∧ c.name ∈ d.columns
  foreignKeys : ∀ c ∈ t.columns, ∀ parts ∈ c.declaredReference, ∃ name onDelete onUpdate strategy,
    .foreignKey name [c.name] parts.refTable parts.refColumns onDelete onUpdate strategy ∈
      t'.constraints
  uniques : ∀ g, (∃ c ∈ t.columns, g ∈ uniqueGroups c) → ∃ strategy,
    .unique (generatedNameToConstraintName g) (declaringColumns uniqueGroups g t.columns) strategy ∈
      t'.constraints
  indexes : ∀ g, (∃ c ∈ t.columns, g ∈ indexGroups c) →
    .index (generatedNameToConstraintName g) (declaringColumns indexGroups g t.columns) ∈
      t'.constraints

/-- The condition: an explicit constraint that passes for a declaration agrees with it, and
    no column lists a unique group twice unless the right constraint is there anyway. -/
structure DeclarationsAgree (t : TableDef) : Prop where
  keys : hasPrimaryKeyConstraint t.constraints = true → ∀ c ∈ t.columns, c.declaresKey = true →
    ∃ d ∈ t.constraints, d.isPrimaryKey = true ∧ c.name ∈ d.columns
  foreignKeys : ∀ c ∈ t.columns, ∀ parts ∈ c.declaredReference,
    foreignKeyConstraintExists t.constraints c.name = true → ∃ name onDelete onUpdate strategy,
      .foreignKey name [c.name] parts.refTable parts.refColumns onDelete onUpdate strategy ∈
        t.constraints
  uniques : ∀ g, (∃ c ∈ t.columns, g ∈ uniqueGroups c) →
    (∃ strategy, .unique (generatedNameToConstraintName g)
      (declaringColumns uniqueGroups g t.columns) strategy ∈ t.constraints) ∨
    ((generatedNameToConstraintName g ≠ none → ∀ cols strategy,
        .unique (generatedNameToConstraintName g) cols strategy ∉ t.constraints) ∧
      ∃ g', generatedNameToConstraintName g' = generatedNameToConstraintName g ∧
        (∀ c ∈ t.columns, (uniqueGroups c).count g' ≤ 1) ∧
        declaringColumns uniqueGroups g' t.columns = declaringColumns uniqueGroups g t.columns)
  indexes : ∀ g, (∃ c ∈ t.columns, g ∈ indexGroups c) →
    .index (generatedNameToConstraintName g) (declaringColumns indexGroups g t.columns) ∈
      t.constraints ∨
    (generatedNameToConstraintName g ≠ none → ∀ cols,
      .index (generatedNameToConstraintName g) cols ∉ t.constraints)

section Realised
variable {t : TableDef}

theorem declaring_nonempty {declared : ColumnDef → List String} {g : String}
    (declares : ∃ c ∈ t.columns, g ∈ declared c) :
    declaringColumns declared g t.columns ≠ [] := by
  obtain ⟨c, mem, joins⟩ := declares
  exact List.ne_nil_of_mem (List.mem_map_of_mem (List.mem_filter.mpr ⟨mem, by simpa using joins⟩))

theorem keys_realised_iff : (∀ c ∈ t.columns, c.declaresKey = true →
      ∃ d ∈ promoted t, d.isPrimaryKey = true ∧ c.name ∈ d.columns) ↔
    (hasPrimaryKeyConstraint t.constraints = true → ∀ c ∈ t.columns, c.declaresKey = true →
      ∃ d ∈ t.constraints, d.isPrimaryKey = true ∧ c.name ∈ d.columns) := by
  have any_key : hasPrimaryKeyConstraint t.constraints = true ↔
      ∃ e ∈ t.constraints, e.isPrimaryKey = true := List.any_eq_true
  have fresh_key : ∀ d ∈ missing covers (candidates t.columns) t.constraints,
      d.isPrimaryKey = true → hasPrimaryKeyConstraint t.constraints ≠ true ∧
        d.columns = (t.columns.filter (·.declaresKey)).map (·.name) := by
    intro d fresh is_key
    rcases candidate_cases (missing_subset fresh) with ⟨_, rfl⟩ | ⟨_, _, rfl⟩ |
      ⟨_, _, _, _, _, _, rfl⟩ | ⟨_, _, rfl⟩
    · refine ⟨fun here => ?_, rfl⟩
      obtain ⟨e, e_mem, e_key⟩ := any_key.mp here
      exact missing_uncovered fresh ⟨e, e_mem, e_key⟩
    · cases is_key
    · cases is_key
    · cases is_key
  constructor
  · intro realised here c mem declares
    obtain ⟨d, d_mem, is_key, joins⟩ := realised c mem declares
    rcases mem_promoted_iff.mp d_mem with explicit | fresh
    · exact ⟨d, explicit, is_key, joins⟩
    · exact absurd here (fresh_key d fresh is_key).1
  · intro agree c mem declares
    by_cases here : hasPrimaryKeyConstraint t.constraints = true
    · obtain ⟨d, explicit, is_key, joins⟩ := agree here c mem declares
      exact ⟨d, mem_append_missing_left explicit, is_key, joins⟩
    · have joins : c.name ∈ (t.columns.filter (·.declaresKey)).map (·.name) :=
        List.mem_map_of_mem (List.mem_filter.mpr ⟨mem, declares⟩)
      have candidate : TableConstraint.primaryKey (collectPrimaryKeyColumns t.columns).2
          ((t.columns.filter (·.declaresKey)).map (·.name)) .default ∈ candidates t.columns := by
        simp only [candidates, List.mem_append, primaryKeyCandidates, collect_primary_key_columns]
        rw [if_neg (List.ne_nil_of_mem joins)]
        exact .inl (.inl (.inl (List.mem_singleton_self _)))
      obtain ⟨e, e_mem, e_covers⟩ := @append_missing_covers _ _ _ candidate_covers_itself
        t.constraints _ candidate
      have is_key : e.isPrimaryKey = true := e_covers
      refine ⟨e, e_mem, is_key, ?_⟩
      rcases mem_promoted_iff.mp e_mem with explicit | fresh
      · exact absurd (any_key.mpr ⟨e, explicit, is_key⟩) here
      · rw [(fresh_key e fresh is_key).2]
        exact joins

theorem foreign_key_realised_iff (nodup : t.columnNames.Nodup) {c : ColumnDef} (mem : c ∈ t.columns)
    {parts : ForeignKeyParts} (declares : parts ∈ c.declaredReference) :
    (∃ name onDelete onUpdate strategy, .foreignKey name [c.name] parts.refTable parts.refColumns
      onDelete onUpdate strategy ∈ promoted t) ↔
    (foreignKeyConstraintExists t.constraints c.name = true → ∃ name onDelete onUpdate strategy,
      .foreignKey name [c.name] parts.refTable parts.refColumns onDelete onUpdate strategy ∈
        t.constraints) := by
  have own : foreignKeyCandidate c = some (.foreignKey none [c.name] parts.refTable parts.refColumns
      parts.onDelete parts.onUpdate .default) := by
    rw [foreign_key_candidate_eq, Option.mem_def.mp declares]
    rfl
  have candidate : TableConstraint.foreignKey none [c.name] parts.refTable parts.refColumns
      parts.onDelete parts.onUpdate .default ∈ candidates t.columns := by
    simp only [candidates, List.mem_append]
    exact .inl (.inr (List.mem_filterMap.mpr ⟨c, mem, own⟩))
  have any_key : foreignKeyConstraintExists t.constraints c.name = true ↔
      Covered covers t.constraints (.foreignKey none [c.name] parts.refTable parts.refColumns
        parts.onDelete parts.onUpdate .default) :=
    (foreign_key_covered t.constraints c.name _ _ _ _).symm
  constructor
  · rintro ⟨name, onDelete, onUpdate, strategy, d_mem⟩ here
    rcases mem_promoted_iff.mp d_mem with explicit | fresh
    · exact ⟨name, onDelete, onUpdate, strategy, explicit⟩
    · obtain ⟨e, e_mem, e_covers⟩ := any_key.mp here
      obtain ⟨d, _, d_declares⟩ := foreign_key_candidate (missing_subset fresh) rfl
      have d_named := ((candidate_covered d_declares _).mp
        (candidate_covers_itself _ (missing_subset fresh))).2
      obtain ⟨e_refers, e_columns⟩ := (candidate_covered own e).mp e_covers
      exact absurd ⟨e, e_mem, (candidate_covered d_declares e).mpr ⟨e_refers, e_columns.trans d_named⟩⟩
        (missing_uncovered fresh)
  · intro agree
    by_cases here : foreignKeyConstraintExists t.constraints c.name = true
    · obtain ⟨name, onDelete, onUpdate, strategy, explicit⟩ := agree here
      exact ⟨name, onDelete, onUpdate, strategy, mem_append_missing_left explicit⟩
    · obtain ⟨e, e_mem, e_covers⟩ := @append_missing_covers _ _ _ candidate_covers_itself
        t.constraints _ candidate
      rcases mem_promoted_iff.mp e_mem with explicit | fresh
      · exact absurd (any_key.mpr ⟨e, explicit, e_covers⟩) here
      · obtain ⟨⟨_, e_refers⟩, e_columns⟩ := (candidate_covered own e).mp e_covers
        obtain ⟨d, d_mem, d_declares⟩ := foreign_key_candidate (missing_subset fresh) e_refers
        have d_named := ((candidate_covered d_declares e).mp
          (candidate_covers_itself e (missing_subset fresh))).2
        have same : c.name = d.name := by simpa using e_columns.symm.trans d_named
        obtain rfl := candidate_unique nodup mem d_mem same own d_declares
        exact ⟨_, _, _, _, e_mem⟩

theorem unique_realised_iff (nodup : t.columnNames.Nodup) {g : String}
    (declares : ∃ c ∈ t.columns, g ∈ uniqueGroups c) :
    (∃ strategy, .unique (generatedNameToConstraintName g)
      (declaringColumns uniqueGroups g t.columns) strategy ∈ promoted t) ↔
    ((∃ strategy, .unique (generatedNameToConstraintName g)
      (declaringColumns uniqueGroups g t.columns) strategy ∈ t.constraints) ∨
    ((generatedNameToConstraintName g ≠ none → ∀ cols strategy,
        .unique (generatedNameToConstraintName g) cols strategy ∉ t.constraints) ∧
      ∃ g', generatedNameToConstraintName g' = generatedNameToConstraintName g ∧
        (∀ c ∈ t.columns, (uniqueGroups c).count g' ≤ 1) ∧
        declaringColumns uniqueGroups g' t.columns = declaringColumns uniqueGroups g t.columns)) := by
  have of_group := group_constraint_iff unique_kind (t := t) (g := g)
    (declaring_nonempty declares)
  have named : ∀ constraints : List TableConstraint, ∀ cols,
      (∃ c ∈ constraints, ∃ strategy, c = .unique (generatedNameToConstraintName g) cols strategy) ↔
        ∃ strategy, .unique (generatedNameToConstraintName g) cols strategy ∈ constraints := by
    intro constraints cols
    constructor
    · rintro ⟨_, mem, strategy, rfl⟩
      exact ⟨strategy, mem⟩
    · rintro ⟨strategy, mem⟩
      exact ⟨_, mem, strategy, rfl⟩
  have none_passes : (∀ c ∈ t.constraints, ∀ cols',
        ¬ ∃ strategy, c = .unique (generatedNameToConstraintName g) cols' strategy) ↔
      ∀ cols strategy, .unique (generatedNameToConstraintName g) cols strategy ∉ t.constraints := by
    constructor
    · intro free cols strategy mem
      exact free _ mem cols ⟨strategy, rfl⟩
    · rintro free _ mem cols ⟨strategy, rfl⟩
      exact free cols strategy mem
  rw [named, named, none_passes] at of_group
  simp only [members_declaring_iff nodup] at of_group
  exact of_group

theorem index_realised_iff (accepted : Normalizable t.columns) {g : String}
    (declares : ∃ c ∈ t.columns, g ∈ indexGroups c) :
    .index (generatedNameToConstraintName g) (declaringColumns indexGroups g t.columns) ∈
      promoted t ↔
    (.index (generatedNameToConstraintName g) (declaringColumns indexGroups g t.columns) ∈
      t.constraints ∨
    (generatedNameToConstraintName g ≠ none → ∀ cols,
      .index (generatedNameToConstraintName g) cols ∉ t.constraints)) := by
  have of_group := group_constraint_iff index_kind (t := t) (g := g) (declaring_nonempty declares)
  have own : ∃ g', generatedNameToConstraintName g' = generatedNameToConstraintName g ∧
      membersOf indexGroups g' t.columns = declaringColumns indexGroups g t.columns :=
    ⟨g, rfl, members_of_once (index_groups_once accepted g)⟩
  have none_passes : (∀ c ∈ t.constraints, ∀ cols',
        ¬ c = .index (generatedNameToConstraintName g) cols') ↔
      ∀ cols, .index (generatedNameToConstraintName g) cols ∉ t.constraints := by
    constructor
    · intro free cols mem
      exact free _ mem cols rfl
    · rintro free _ mem cols rfl
      exact free cols mem
  simpa only [exists_eq_right, own, and_true, none_passes] using of_group

end Realised

/-- A normalised table realises the declarations of its columns just when what is explicit
    agrees with them. -/
theorem normalize_realises_iff {t t' : TableDef} (nodup : t.columnNames.Nodup)
    (ok : t.normalize = .ok t') : Realised t t' ↔ DeclarationsAgree t := by
  have accepted := normalizable_of_normalize ok
  obtain rfl := normalize_value ok
  constructor
  · intro realised
    constructor
    · exact keys_realised_iff.mp realised.keys
    · intro c mem parts declares
      exact (foreign_key_realised_iff nodup mem declares).mp
        (realised.foreignKeys c mem parts declares)
    · intro g declares
      exact (unique_realised_iff nodup declares).mp (realised.uniques g declares)
    · intro g declares
      exact (index_realised_iff accepted declares).mp (realised.indexes g declares)
  · intro agree
    constructor
    · exact ⟨_, append_missing_eq _ _⟩
    · rfl
    · exact keys_realised_iff.mpr agree.keys
    · intro c mem parts declares
      exact (foreign_key_realised_iff nodup mem declares).mpr
        (agree.foreignKeys c mem parts declares)
    · intro g declares
      exact (unique_realised_iff nodup declares).mpr (agree.uniques g declares)
    · intro g declares
      exact (index_realised_iff accepted declares).mpr (agree.indexes g declares)

def loginColumns (unique : Option StrOrBoolOrArray) : List ColumnDef :=
  [{ ColumnDef.new "id" (.simple .integer) false with primaryKey := some (.bool true) },
    .new "name" (.simple .text) false,
    { ColumnDef.new "email" (.simple .text) false with unique }]

def loginTable (unique : Option StrOrBoolOrArray) (constraints : List TableConstraint) : TableDef :=
  ⟨"login", none, loginColumns unique, constraints⟩

set_option maxRecDepth 100000 in
theorem login_normalized : (loginTable (some (.bool true)) []).normalize =
    .ok (loginTable (some (.bool true))
      [.primaryKey false ["id"] .default, .unique none ["email"] .default]) := by
  decide

theorem login_normalized_twice : (loginTable (some (.bool true))
      [.primaryKey false ["id"] .default, .unique none ["email"] .default]).normalize =
    .ok (loginTable (some (.bool true))
      [.primaryKey false ["id"] .default, .unique none ["email"] .default]) :=
  normalize_idempotent login_normalized

theorem login_realised_iff : Realised (loginTable (some (.bool true)) [])
      (loginTable (some (.bool true))
        [.primaryKey false ["id"] .default, .unique none ["email"] .default]) ↔
    DeclarationsAgree (loginTable (some (.bool true)) []) :=
  normalize_realises_iff (by decide) login_normalized

set_option maxRecDepth 100000 in
/-- The explicit constraint has the name of the inline one, over another column. -/
theorem inline_unique_lost :
    ¬ ∀ t t', t.columnNames.Nodup → t.normalize = .ok t' → Realised t t' := by
  intro realised
  have kept : (loginTable (some (.str "uq_login")) [.unique (some "uq_login") ["name"] .default]).normalize =
      .ok (loginTable (some (.str "uq_login")) [.unique (some "uq_login") ["name"] .default,
        .primaryKey false ["id"] .default]) := by
    decide
  obtain ⟨strategy, mem⟩ := (realised _ _ (by decide) kept).uniques "uq_login" (by decide)
  have others : ∀ d ∈ (loginTable (some (.str "uq_login")) [.unique (some "uq_login") ["name"] .default,
      .primaryKey false ["id"] .default]).constraints, d.columns ≠ ["email"] := by
    decide
  have declaring : declaringColumns uniqueGroups "uq_login"
      (loginColumns (some (.str "uq_login"))) = ["email"] := by
    decide
  exact others _ mem declaring

end Vespertide
