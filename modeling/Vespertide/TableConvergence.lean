import Vespertide.PlanReplay

/-!
The second difference of one table. After the actions of the first one, nothing
is left to do exactly when no shrunk constraint is left over, the inline
declarations that stay give back the constraints of the target, and the values
of its integer enums were told apart.
-/
namespace Vespertide
open Components AppendMissing

variable {name : String} {t u r : TableDef}

/-! When a table has no actions -/

theorem table_actions_nil_iff {edits : List MigrationAction} {added : List TableConstraint} :
    tableActions name t u edits added = [] ↔
      (droppedColumns t u = [] ∧ edits = [] ∧ addedColumns t u = []) ∧
      replacements name t u = [] ∧ removals name t u = [] ∧ added = [] := by
  simp only [tableActions, columnActions, List.append_eq_nil_iff, List.map_eq_nil_iff, and_assoc]

theorem lost_none_left (same : droppedColumns t u = []) (no_replacement : replacements name t u = [])
    (no_removal : removals name t u = []) {c : TableConstraint} (mem : c ∈ promoted t) :
    c ∈ u.constraints := by
  by_contra lost
  have perm := replaced_unreplaced_perm name (promoted t) u.constraints
  have none_replaced : replacedOlds name (promoted t) u.constraints = [] := by
    show olds (replacements name t u) = []
    rw [no_replacement]
    rfl
  have none_left : unreplacedOf name (promoted t) u.constraints = [] := by
    rw [List.eq_nil_iff_forall_not_mem]
    intro d there
    have removed : d ∈ removals name t u := by
      refine List.mem_filter.mpr ⟨there, ?_⟩
      simp only [same, columnsGone, List.not_mem_nil, Bool.not_eq_true', decide_eq_false_iff_not]
      rintro ⟨nonempty, all_gone⟩
      obtain ⟨col, here⟩ := List.exists_mem_of_ne_nil _ nonempty
      exact all_gone col here
    rw [no_removal] at removed
    exact List.not_mem_nil removed
  rw [none_replaced, none_left] at perm
  have here : c ∈ (promoted t).filter (· ∉ u.constraints) :=
    List.mem_filter.mpr ⟨mem, by simpa using lost⟩
  rw [List.nil_append, List.nil_perm] at perm
  rw [perm] at here
  exact List.not_mem_nil here

theorem constraint_actions_nil_iff (same : droppedColumns t u = []) :
    (replacements name t u = [] ∧ removals name t u = [] ∧ additions name t u = []) ↔
      ∀ c, c ∈ promoted t ↔ c ∈ u.constraints := by
  constructor
  · rintro ⟨no_replacement, no_removal, no_addition⟩ c
    constructor
    · exact lost_none_left same no_replacement no_removal
    · intro mem
      by_contra gained
      rcases gained_replaces_or_added name mem gained with ⟨old, action⟩ | added
      · have here : .replaceConstraint name old c ∈ replacements name t u := action
        rw [no_replacement] at here
        exact List.not_mem_nil here
      · have here : c ∈ additions name t u := added
        rw [no_addition] at here
        exact List.not_mem_nil here
  · intro agree
    refine ⟨?_, ?_, ?_⟩
    · rw [List.eq_nil_iff_forall_not_mem]
      intro a mem
      obtain ⟨old, new, _, here, lost, _⟩ := (replaced_constraints_paired name).replaces a mem
      exact lost ((agree old).mp here)
    · rw [List.eq_nil_iff_forall_not_mem]
      intro c mem
      obtain ⟨lost, fewer⟩ := (mem_unreplaced_iff name).mp (List.mem_of_mem_filter mem)
      have present : c ∈ promoted t := List.count_pos_iff.mp (by omega)
      exact lost ((agree c).mp present)
    · rw [List.eq_nil_iff_forall_not_mem]
      intro c mem
      obtain ⟨here, gained⟩ := added_gained name mem
      exact gained ((agree c).mpr here)

theorem attribute_edits_nil_iff {fromCols toCols : List ColumnDef}
    (from_nodup : (fromCols.map (·.name)).Nodup) (to_nodup : (toCols.map (·.name)).Nodup) :
    attributeEdits name fromCols toCols = [] ↔
      ∀ fromDef ∈ fromCols, ∀ toDef ∈ toCols, fromDef.name = toDef.name →
        columnEditsOf name fromDef toDef = [] := by
  constructor
  · intro none_left fromDef from_mem toDef to_mem same
    rw [List.eq_nil_iff_forall_not_mem]
    intro a mem
    have here : columnGet fromCols toDef.name = some fromDef :=
      same ▸ KeyedView.get_of_nodup from_nodup from_mem
    have there : columnGet toCols toDef.name = some toDef := KeyedView.get_of_nodup to_nodup to_mem
    have listed : a ∈ attributeEdits name fromCols toCols :=
      mem_attribute_edits.mpr ⟨fromDef, toDef, here, there, mem⟩
    rw [none_left] at listed
    exact List.not_mem_nil listed
  · intro settled
    rw [List.eq_nil_iff_forall_not_mem]
    intro a mem
    obtain ⟨fromDef, toDef, here, there, edit⟩ := mem_attribute_edits.mp mem
    obtain ⟨from_mem, same⟩ := KeyedView.get_some here
    rw [settled fromDef from_mem toDef (KeyedView.get_some there).1 same] at edit
    exact List.not_mem_nil edit

theorem no_actions_iff (t_nodup : t.columnNames.Nodup) (u_nodup : u.columnNames.Nodup)
    (names : ∀ col, col ∈ t.columnNames ↔ col ∈ u.columnNames) :
    tableActions name t u (attributeEdits name t.columns u.columns) (additions name t u) = [] ↔
      (∀ fromDef ∈ t.columns, ∀ toDef ∈ u.columns, fromDef.name = toDef.name →
        columnEditsOf name fromDef toDef = []) ∧
      ∀ c, c ∈ promoted t ↔ c ∈ u.constraints := by
  have none_dropped : droppedColumns t u = [] := by
    rw [List.eq_nil_iff_forall_not_mem]
    intro col mem
    obtain ⟨here, absent⟩ := mem_dropped.mp mem
    exact absent ((names col).mp here)
  have none_added : addedColumns t u = [] := by
    rw [List.eq_nil_iff_forall_not_mem]
    intro c mem
    obtain ⟨toDef, here, absent, _⟩ := (mem_added u_nodup).mp mem
    exact absent ((names toDef.name).mpr (List.mem_map_of_mem here))
  rw [table_actions_nil_iff, constraint_actions_nil_iff none_dropped,
    attribute_edits_nil_iff t_nodup u_nodup]
  simp only [none_dropped, none_added, true_and, and_true]

/-! What the first difference leaves -/

/-- The baseline constraints that the target lacks, those apart that go with their columns. -/
def goneConstraints (t u : TableDef) : List TableConstraint :=
  (promoted t).filter fun c => c ∉ u.constraints ∧ columnsGone (droppedColumns t u) c = false

/-- The columns that stay, without the declarations of the constraints that go. -/
def stayingColumns (t u : TableDef) : List ColumnDef :=
  (keptColumns t u).map (clearAll t.name (goneConstraints t u))

def presentConstraints (t u : TableDef) : List TableConstraint :=
  u.constraints.filter fun c => c ∈ promoted t → c ∈ carriedConstraints t u

/-- A constraint that the target lacks and no action takes away: the column changes leave
    it more often than the baseline has it, and where the baseline has it, it is replaced. -/
def Leftover (t u : TableDef) (c : TableConstraint) : Prop :=
  c ∉ u.constraints ∧ (promoted t).count c < (carriedConstraints t u).count c ∧
    (promoted t).count c ≤
      (replacedAs (promoted t) u.constraints (constraintIdentityKey c)).count c

instance (t u : TableDef) (c : TableConstraint) : Decidable (Leftover t u c) :=
  inferInstanceAs (Decidable (_ ∧ _))

structure Converges (t u : TableDef) : Prop where
  no_leftover : ∀ c, ¬ Leftover t u c
  declarations_agree : ∀ c,
    c ∈ appendMissing covers (candidates (stayingColumns t u)) (presentConstraints t u) ↔
      c ∈ u.constraints
  enums : ∀ fromDef ∈ t.columns, ∀ toDef ∈ u.columns, fromDef.name = toDef.name →
    EnumConverges fromDef.type toDef.type

theorem cleared_perm (replaceable : Replaceable t u) :
    (replaced name t u ++ removals name t u).Perm (goneConstraints t u) := by
  have perm := (replaced_unreplaced_perm name (promoted t) u.constraints).filter
    (! columnsGone (droppedColumns t u) ·)
  have stay : (replaced name t u).filter (! columnsGone (droppedColumns t u) ·) =
      replaced name t u := by
    rw [List.filter_eq_self]
    intro c mem
    rw [carried_columns_stay (replaceable c (mem_replaced.mp mem))]
    rfl
  have gone : ((promoted t).filter (· ∉ u.constraints)).filter
      (! columnsGone (droppedColumns t u) ·) = goneConstraints t u := by
    rw [List.filter_filter, goneConstraints]
    apply List.filter_congr
    intro c _
    cases columnsGone (droppedColumns t u) c <;> simp
  rw [List.filter_append, gone] at perm
  rw [← stay]
  exact perm

theorem replaced_count (name : String) (c : TableConstraint) : (replaced name t u).count c =
    (replacedAs (promoted t) u.constraints (constraintIdentityKey c)).count c := by
  unfold replaced
  exact count_olds name c

theorem mem_removals (c : TableConstraint) : c ∈ removals name t u ↔ (c ∉ u.constraints ∧
    (replaced name t u).count c < (promoted t).count c) ∧
    columnsGone (droppedColumns t u) c = false := by
  rw [replaced_count, ← mem_unreplaced_iff name]
  simp [removals, removedOf]

theorem edited_attributes (t_nodup : t.columnNames.Nodup) (u_nodup : u.columnNames.Nodup)
    {fromDef toDef : ColumnDef} (from_mem : fromDef ∈ t.columns) (to_mem : toDef ∈ u.columns)
    (same : fromDef.name = toDef.name) (gone : List TableConstraint) :
    (clearAll t.name gone (editAll (attributeEdits t.name t.columns u.columns) fromDef)).stripInline =
      (editedColumn fromDef toDef).stripInline := by
  rw [clear_all_attributes, edit_all_attributes same
    (same ▸ KeyedView.get_of_nodup t_nodup from_mem) (KeyedView.get_of_nodup u_nodup to_mem),
    edit_column_edits same]

section Left
variable {added : List TableConstraint} (left : TableLeft t.name t u added r)
include left

theorem left_names_eq : r.columnNames =
    (keptColumns t u).map (·.name) ++ (addedColumns t u).map (·.name) := by
  simp only [TableDef.columnNames, left.columns, columnsDone, List.map_append, List.map_map]
  congr 1
  · exact List.map_congr_left fun c _ => by simp
  · exact List.map_congr_left fun c _ => by simp

theorem left_names (u_nodup : u.columnNames.Nodup) (col : String) :
    col ∈ r.columnNames ↔ col ∈ u.columnNames := by
  rw [left_names_eq left, ← List.map_append, mem_kept_added u_nodup]

theorem left_regular (regular : Regular t) : Regular r := by
  constructor
  · rw [left_names_eq left, ← List.map_append]
    exact kept_added_nodup regular.nodup
  · intro c mem
    rw [left.columns, columnsDone, List.map_append, List.mem_append] at mem
    rcases mem with kept | added
    · obtain ⟨d, mem, rfl⟩ := List.mem_map.mp kept
      exact clear_all_inline_ok (kept_inline_ok regular _ d mem) _ _
    · obtain ⟨d, mem, rfl⟩ := List.mem_map.mp added
      exact clear_all_inline_ok (Plain.inline_ok (added_plain d mem)) _ _

theorem left_candidates (replaceable : Replaceable t u) :
    candidates r.columns = candidates (stayingColumns t u) := by
  rw [left.columns, columnsDone, List.map_append]
  have plain : ∀ c ∈ (addedColumns t u).map
      (clearAll t.name (replaced t.name t u ++ removals t.name t u)), c.Plain := by
    intro c mem
    obtain ⟨d, here, rfl⟩ := List.mem_map.mp mem
    exact clear_all_plain (added_plain d here) _ _
  rw [candidates_append_plain plain]
  apply candidates_congr
  simp only [stayingColumns, List.map_map]
  apply List.map_congr_left
  intro c _
  simp only [Function.comp_apply, ← clear_all_declarations, edit_all_declarations]
  rw [clear_all_perm t.name (cleared_perm replaceable)]

theorem left_enums (t_nodup : t.columnNames.Nodup) (u_nodup : u.columnNames.Nodup) :
    (∀ fromDef ∈ r.columns, ∀ toDef ∈ u.columns, fromDef.name = toDef.name →
      columnEditsOf t.name fromDef toDef = []) ↔
    ∀ fromDef ∈ t.columns, ∀ toDef ∈ u.columns, fromDef.name = toDef.name →
      EnumConverges fromDef.type toDef.type := by
  simp only [left.columns, columnsDone, List.map_append, List.mem_append, List.mem_map]
  constructor
  · intro settled fromDef from_mem toDef to_mem same
    rw [← second_edits_nil_iff (edited_attributes t_nodup u_nodup from_mem to_mem same _)]
    refine settled _ (.inl ⟨_, ⟨fromDef, mem_kept.mpr ⟨from_mem, ?_⟩, rfl⟩, rfl⟩) toDef to_mem ?_
    · exact same ▸ List.mem_map_of_mem to_mem
    · simpa using same
  · intro converges r_col mem toDef to_mem same
    rcases mem with ⟨_, ⟨fromDef, kept, rfl⟩, rfl⟩ | ⟨c, added, rfl⟩
    · have from_mem := (mem_kept.mp kept).1
      have named : fromDef.name = toDef.name := by simpa using same
      rw [second_edits_nil_iff (edited_attributes t_nodup u_nodup from_mem to_mem named _)]
      exact converges fromDef from_mem toDef to_mem named
    · obtain ⟨addedDef, here, _, rfl⟩ := (mem_added u_nodup).mp added
      have named : addedDef.name = toDef.name := by
        rw [clear_all_name] at same
        exact same
      obtain rfl := List.inj_on_of_nodup_map u_nodup here to_mem named
      apply same_edits_nil
      rw [clear_all_attributes]
      rfl

theorem left_column_absent (u_nodup : u.columnNames.Nodup) {col : String}
    (absent : columnGet u.columns col = none) : columnGet r.columns col = none := by
  rw [KeyedView.get_eq_none_iff] at absent ⊢
  intro d mem named
  have there : d.name ∈ u.columnNames := (left_names left u_nodup d.name).mp (List.mem_map_of_mem mem)
  obtain ⟨c, here, same⟩ := List.mem_map.mp there
  exact absent c here (same.trans named)

theorem left_column_kept (regular : Regular t) (u_nodup : u.columnNames.Nodup) {col : String}
    {fromDef toDef : ColumnDef} (here : columnGet t.columns col = some fromDef)
    (there : columnGet u.columns col = some toDef) :
    ∃ d, columnGet r.columns col = some d ∧ d.type = (editedColumn fromDef toDef).type := by
  obtain ⟨from_mem, rfl⟩ := KeyedView.get_some here
  obtain ⟨to_mem, named⟩ := KeyedView.get_some there
  have kept : fromDef ∈ keptColumns t u :=
    mem_kept.mpr ⟨from_mem, named ▸ List.mem_map_of_mem to_mem⟩
  have mem : clearAll t.name (replaced t.name t u ++ removals t.name t u)
      (editAll (attributeEdits t.name t.columns u.columns) fromDef) ∈ r.columns := by
    rw [left.columns, columnsDone]
    exact List.mem_map_of_mem (List.mem_append_left _ (List.mem_map_of_mem kept))
  refine ⟨_, by simpa using KeyedView.get_of_nodup (left_regular left regular).nodup mem, ?_⟩
  exact (strip_inline_eq
    (edited_attributes regular.nodup u_nodup from_mem to_mem named.symm _)).2.1

theorem left_column_added (regular : Regular t) (u_nodup : u.columnNames.Nodup) {col : String}
    {toDef : ColumnDef} (absent : columnGet t.columns col = none)
    (there : columnGet u.columns col = some toDef) :
    ∃ d, columnGet r.columns col = some d ∧ d.type = toDef.type := by
  obtain ⟨to_mem, rfl⟩ := KeyedView.get_some there
  have added : toDef.stripInline ∈ addedColumns t u := by
    refine (mem_added u_nodup).mpr ⟨toDef, to_mem, ?_, rfl⟩
    intro mem
    obtain ⟨c, here, same⟩ := List.mem_map.mp mem
    exact KeyedView.get_eq_none_iff.mp absent c here same
  have mem : clearAll t.name (replaced t.name t u ++ removals t.name t u) toDef.stripInline ∈
      r.columns := by
    rw [left.columns, columnsDone]
    exact List.mem_map_of_mem (List.mem_append_right _ added)
  have named : (clearAll t.name (replaced t.name t u ++ removals t.name t u)
      toDef.stripInline).name = toDef.name := clear_all_name _ _ _
  refine ⟨_, named ▸ KeyedView.get_of_nodup (left_regular left regular).nodup mem, ?_⟩
  have same := clear_all_attributes t.name (replaced t.name t u ++ removals t.name t u)
    toDef.stripInline
  exact (strip_inline_eq same).2.1

theorem left_unwanted (added_wanted : ∀ c ∈ added, c ∈ u.constraints) {c : TableConstraint}
    (unwanted : c ∉ u.constraints) : c ∈ r.constraints ↔ Leftover t u c := by
  have carried : 0 < (carriedConstraints t u).count c →
      columnsGone (droppedColumns t u) c = false := by
    intro present
    exact carried_columns_stay (List.count_pos_iff.mp present)
  have not_new : c ∉ news (replacements t.name t u) := by
    intro new
    obtain ⟨a, mem, shape⟩ := List.mem_filterMap.mp new
    obtain ⟨before, after, rfl, _, _, here, _⟩ :=
      (replaced_constraints_paired t.name).replaces a mem
    obtain rfl := Option.some.inj shape
    exact unwanted here
  have not_added : c ∉ added := fun new => unwanted (added_wanted c new)
  have within : (replaced t.name t u).count c ≤ (promoted t).count c := replaced_count_le c
  rw [left.constraints, mem_removals]
  simp only [not_new, not_added, false_or, or_false, Leftover, unwanted, not_false_eq_true,
    true_and, ← replaced_count t.name]
  constructor
  · rintro ⟨kept, more⟩
    have all_replaced : ¬ (replaced t.name t u).count c < (promoted t).count c := by
      intro fewer
      exact kept ⟨fewer, carried (by omega)⟩
    omega
  · rintro ⟨more, all_replaced⟩
    refine ⟨?_, by omega⟩
    rintro ⟨fewer, _⟩
    omega

/-- A constraint of both sides is there as long as it was carried along. -/
theorem left_shared (added_gained : ∀ c ∈ added, c ∉ promoted t) {c : TableConstraint}
    (wanted : c ∈ u.constraints) (old : c ∈ promoted t) :
    c ∈ r.constraints ↔ c ∈ carriedConstraints t u := by
  have not_replaced : (replaced t.name t u).count c = 0 := by
    rw [List.count_eq_zero]
    intro mem
    exact (replaced_as_lost (mem_replaced.mp mem)).2 wanted
  have not_new : c ∉ news (replacements t.name t u) := by
    intro new
    exact mem_news_baseline replacements_replace new old
  have not_added : c ∉ added := fun new => added_gained c new old
  rw [left.constraints, mem_removals]
  simp [wanted, not_replaced, not_new, not_added, List.count_pos_iff]

theorem left_constraints (added_mem : ∀ c, c ∈ added ↔ c ∈ additions t.name t u)
    (c : TableConstraint) : c ∈ r.constraints ↔ c ∈ presentConstraints t u ∨ Leftover t u c := by
  by_cases wanted : c ∈ u.constraints
  · have never_left : ¬ Leftover t u c := fun leftover => leftover.1 wanted
    by_cases old : c ∈ promoted t
    · have fresh : ∀ d ∈ added, d ∉ promoted t := fun d mem =>
        (added_gained t.name ((added_mem d).mp mem)).2
      rw [left_shared left fresh wanted old]
      simp [presentConstraints, wanted, old, never_left]
    · have appears : c ∈ news (replacements t.name t u) ∨ c ∈ added := by
        rw [added_mem]
        refine (gained_replaces_or_added t.name wanted old).imp_left ?_
        rintro ⟨before, action⟩
        exact List.mem_filterMap.mpr ⟨_, action, rfl⟩
      rw [left.constraints, mem_removals]
      rcases appears with new | new <;> simp [wanted, new, presentConstraints, old]
  · have added_wanted : ∀ d ∈ added, d ∈ u.constraints := fun d mem =>
      (added_gained t.name ((added_mem d).mp mem)).1
    rw [left_unwanted left added_wanted wanted]
    simp [presentConstraints, wanted]

theorem left_promoted (added_mem : ∀ c, c ∈ added ↔ c ∈ additions t.name t u)
    (replaceable : Replaceable t u) :
    (∀ c, c ∈ promoted r ↔ c ∈ u.constraints) ↔ (∀ c, ¬ Leftover t u c) ∧ ∀ c,
      c ∈ appendMissing covers (candidates (stayingColumns t u)) (presentConstraints t u) ↔
        c ∈ u.constraints := by
  have contents := left_constraints left added_mem
  have none_left : (∀ c, ¬ Leftover t u c) → ∀ c, c ∈ promoted r ↔
      c ∈ appendMissing covers (candidates (stayingColumns t u)) (presentConstraints t u) := by
    intro no_leftover c
    rw [promoted, left_candidates left replaceable]
    apply append_missing_congr
    intro d
    rw [contents]
    simp [no_leftover d]
  constructor
  · intro agree
    have no_leftover : ∀ c, ¬ Leftover t u c := by
      intro c leftover
      have here : c ∈ promoted r := mem_append_missing_left ((contents c).mpr (.inr leftover))
      exact leftover.1 ((agree c).mp here)
    exact ⟨no_leftover, fun c => by rw [← none_left no_leftover, agree]⟩
  · rintro ⟨no_leftover, agree⟩ c
    rw [none_left no_leftover, agree]

theorem second_actions_nil_iff (regular : Regular t) (u_nodup : u.columnNames.Nodup)
    (added_mem : ∀ c, c ∈ added ↔ c ∈ additions t.name t u) (replaceable : Replaceable t u) :
    tableActions t.name r u (attributeEdits t.name r.columns u.columns) (additions t.name r u) = [] ↔
      Converges t u := by
  rw [no_actions_iff (left_regular left regular).nodup u_nodup (left_names left u_nodup),
    left_enums left regular.nodup u_nodup, left_promoted left added_mem replaceable]
  constructor
  · rintro ⟨enums, no_leftover, agree⟩
    exact ⟨no_leftover, agree, enums⟩
  · rintro ⟨no_leftover, agree, enums⟩
    exact ⟨enums, no_leftover, agree⟩

end Left

theorem promoted_twice {t r : TableDef} (columns : r.columns = t.columns)
    (constraints : r.constraints = promoted t) : promoted r = promoted t := by
  rw [promoted, columns, constraints, promoted,
    append_missing_idempotent candidate_covers_itself]

theorem created_actions_nil {t r : TableDef} (regular : Regular t)
    (columns : r.columns = t.columns) (same_promoted : promoted r = promoted t) :
    tableActions name r { t with constraints := promoted t }
      (attributeEdits name r.columns t.columns)
      (additions name r { t with constraints := promoted t }) = [] := by
  have same_names : r.columnNames = t.columnNames := by
    simp only [TableDef.columnNames, columns]
  have nodup : r.columnNames.Nodup := same_names ▸ regular.nodup
  refine (no_actions_iff (u := { t with constraints := promoted t }) nodup regular.nodup ?_).mpr
    ⟨?_, ?_⟩
  · intro col
    rw [same_names]
    exact Iff.rfl
  · intro fromDef from_mem toDef to_mem same
    rw [columns] at from_mem
    obtain rfl := List.inj_on_of_nodup_map regular.nodup from_mem to_mem same
    exact same_edits_nil rfl
  · intro c
    rw [same_promoted]

end Vespertide
