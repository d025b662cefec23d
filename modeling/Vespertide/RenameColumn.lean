import Vespertide.WellFormedReplay

/-!
Foreign keys under a renamed column. Replay renames the column on both sides of
the foreign keys of its own table and nowhere else, whichever table they refer to;
inline declarations keep the referenced name they were written with.
-/
namespace Vespertide

structure ForeignKeyEnds where
  columns : List String
  refTable : String
  refColumns : List String
  deriving DecidableEq, Repr

def TableConstraint.foreignKeyEnds : TableConstraint → Option ForeignKeyEnds
  | .foreignKey _ columns refTable refColumns _ _ _ => some ⟨columns, refTable, refColumns⟩
  | _ => none

def ColumnDef.foreignKeyEnds (c : ColumnDef) : Option ForeignKeyEnds :=
  c.declaredReference.map fun parts => ⟨[c.name], parts.refTable, parts.refColumns⟩

def TableDef.constraintEnds (t : TableDef) : List ForeignKeyEnds :=
  t.constraints.filterMap TableConstraint.foreignKeyEnds

def TableDef.inlineEnds (t : TableDef) : List ForeignKeyEnds :=
  t.columns.filterMap ColumnDef.foreignKeyEnds

/-- The same columns under their new name: a side is renamed where it stands in `table`. -/
def ForeignKeyEnds.follow (table old new owner : String) (e : ForeignKeyEnds) : ForeignKeyEnds :=
  ⟨if owner = table then renameColumnRefs old new e.columns else e.columns, e.refTable,
    if e.refTable = table then renameColumnRefs old new e.refColumns else e.refColumns⟩

/-- Every foreign key refers to the same columns after a rename as before. -/
structure ForeignKeysFollow (table old new : String) (before after : Schema) : Prop where
  constraints : after.map TableDef.constraintEnds = before.map fun u =>
    u.constraintEnds.map (ForeignKeyEnds.follow table old new u.name)
  inlines : after.map TableDef.inlineEnds = before.map fun u =>
    u.inlineEnds.map (ForeignKeyEnds.follow table old new u.name)

/-- A referenced column of the old name belongs to the renamed table exactly when the
    foreign key does, and no inline declaration refers to the renamed column. -/
structure RefersWithin (table old : String) (schema : Schema) : Prop where
  constraints : ∀ u ∈ schema, ∀ e ∈ u.constraintEnds, old ∈ e.refColumns →
    (u.name = table ↔ e.refTable = table)
  inlines : ∀ u ∈ schema, ∀ e ∈ u.inlineEnds, e.refTable = table → old ∉ e.refColumns

theorem on_table_map {schema : Schema} (nodup : TableNamesNodup schema) (name : String)
    (f : TableDef → Outcome TableDef) :
    (onTable name f schema).state = schema.map fun t => if t.name = name then (f t).state else t := by
  induction schema with
  | nil => rfl
  | cons t rest ih =>
    obtain ⟨fresh, tail⟩ := List.nodup_cons.mp nodup
    by_cases here : t.name = name
    · have others : ∀ u ∈ rest, (if u.name = name then (f u).state else u) = u := by
        intro u mem
        have other : u.name ≠ name := by
          intro same
          exact fresh (List.mem_map.mpr ⟨u, mem, same.trans here.symm⟩)
        rw [if_neg other]
      simp [onTable, here, List.map_congr_left others]
    · simp [onTable, here, ih tail]

theorem rename_refs_fixed {old new : String} (other : new ≠ old) (columns : List String) :
    renameColumnRefs old new columns = columns ↔ old ∉ columns := by
  unfold renameColumnRefs
  induction columns with
  | nil => simp
  | cons c rest ih =>
    rw [List.map_cons, List.cons.injEq, ih, List.mem_cons, not_or]
    by_cases here : c = old
    · simp [here, other]
    · simp [here, Ne.symm here]

theorem referenced_side {table old new : String} (other : new ≠ old) (e : ForeignKeyEnds) :
    e.refColumns = (if e.refTable = table then renameColumnRefs old new e.refColumns
      else e.refColumns) ↔ (e.refTable = table → old ∉ e.refColumns) := by
  split
  · rename_i here
    rw [eq_comm, rename_refs_fixed other]
    simp [here]
  · rename_i elsewhere
    simp [elsewhere]

theorem follow_elsewhere {table old new owner : String} (other : new ≠ old) (own : owner ≠ table)
    (e : ForeignKeyEnds) :
    e = e.follow table old new owner ↔ (e.refTable = table → old ∉ e.refColumns) := by
  rw [← referenced_side other e]
  cases e
  simp only [ForeignKeyEnds.follow, own, ↓reduceIte, ForeignKeyEnds.mk.injEq, true_and]

/-! What the rename makes of the two kinds of declarations -/

theorem renamed_constraint_ends (old new : String) (c : TableConstraint) :
    (renameColumnInConstraint old new c).foreignKeyEnds = c.foreignKeyEnds.map fun e =>
      ⟨renameColumnRefs old new e.columns, e.refTable, renameColumnRefs old new e.refColumns⟩ := by
  cases c <;> rfl

theorem renamed_column_ends (old new : String) (c : ColumnDef) :
    (if c.name = old then { c with name := new } else c).foreignKeyEnds =
      c.foreignKeyEnds.map fun e =>
        ⟨renameColumnRefs old new e.columns, e.refTable, e.refColumns⟩ := by
  have same : (if c.name = old then { c with name := new } else c).declaredReference =
      c.declaredReference := declared_reference_congr (by split <;> rfl)
  unfold ColumnDef.foreignKeyEnds
  rw [same, Option.map_map]
  congr 1
  funext parts
  simp only [Function.comp_apply, renameColumnRefs, List.map_cons, List.map_nil]
  split <;> rfl

section Renamed
variable {t : TableDef} {old new : String} (present : old ∈ t.columnNames)
include present

theorem renamed_table_constraints (table : String) :
    (renameColumnIn table old new t).state.constraintEnds = t.constraintEnds.map fun e =>
      ⟨renameColumnRefs old new e.columns, e.refTable, renameColumnRefs old new e.refColumns⟩ := by
  unfold renameColumnIn
  rw [if_pos present]
  simp only [Outcome.ok, TableDef.constraintEnds, List.filterMap_map, List.map_filterMap]
  congr 1
  funext c
  exact renamed_constraint_ends old new c

theorem renamed_table_inlines (table : String) (nodup : t.columnNames.Nodup) :
    (renameColumnIn table old new t).state.inlineEnds = t.inlineEnds.map fun e =>
      ⟨renameColumnRefs old new e.columns, e.refTable, e.refColumns⟩ := by
  unfold renameColumnIn
  rw [if_pos present]
  simp only [Outcome.ok, TableDef.inlineEnds]
  rw [map_first_column nodup, List.filterMap_map, List.map_filterMap]
  congr 1
  funext c
  exact renamed_column_ends old new c

end Renamed

/-! The schema -/

section Schema
variable {schema : Schema} {table old new : String} (well_formed : WellFormed schema)
  (ok : (applyAction schema (.renameColumn table old new)).error = none)
  (unused : ∀ t, tableAt schema table = some t → new ∉ t.columnNames)
include well_formed ok unused

omit well_formed in
theorem rename_found : ∃ t, tableAt schema table = some t ∧ old ∈ t.columnNames ∧ new ≠ old := by
  cases found : tableAt schema table with
  | none =>
    exact absurd ok (on_table_absent found _)
  | some t =>
    have error : (renameColumnIn table old new t).error = none :=
      (on_table_error found (renameColumnIn table old new)).symm.trans ok
    by_cases present : old ∈ t.columnNames
    · refine ⟨t, rfl, present, ?_⟩
      rintro rfl
      exact unused t found present
    · simp [renameColumnIn, present, Outcome.fail] at error

theorem constraints_follow_iff :
    ((applyAction schema (.renameColumn table old new)).state.map TableDef.constraintEnds =
      schema.map fun u => u.constraintEnds.map (ForeignKeyEnds.follow table old new u.name)) ↔
      ∀ u ∈ schema, ∀ e ∈ u.constraintEnds, old ∈ e.refColumns →
        (u.name = table ↔ e.refTable = table) := by
  obtain ⟨t, found, present, other⟩ := rename_found ok unused
  show ((onTable table (renameColumnIn table old new) schema).state.map _ = _) ↔ _
  rw [on_table_map well_formed.names, List.map_map, List.map_inj_left]
  refine forall₂_congr fun u mem => ?_
  by_cases own : u.name = table
  · obtain rfl : u = t := by
      have at_own := table_at_mem well_formed.names mem
      rw [own, found] at at_own
      exact (Option.some.inj at_own).symm
    rw [Function.comp_apply, if_pos own, renamed_table_constraints present, List.map_inj_left]
    refine forall₂_congr fun e _ => ?_
    simp only [ForeignKeyEnds.follow, own, ↓reduceIte, ForeignKeyEnds.mk.injEq, true_and, true_iff]
    split
    · simp [*]
    · rename_i elsewhere
      rw [rename_refs_fixed other]
      simp [elsewhere]
  · rw [Function.comp_apply, if_neg own]
    have unchanged : u.constraintEnds = u.constraintEnds.map id := (List.map_id _).symm
    conv_lhs => lhs; rw [unchanged]
    rw [List.map_inj_left]
    refine forall₂_congr fun e _ => ?_
    rw [id_eq, follow_elsewhere other own e]
    simp only [own, false_iff]
    exact imp_not_comm

theorem inlines_follow_iff :
    ((applyAction schema (.renameColumn table old new)).state.map TableDef.inlineEnds =
      schema.map fun u => u.inlineEnds.map (ForeignKeyEnds.follow table old new u.name)) ↔
      ∀ u ∈ schema, ∀ e ∈ u.inlineEnds, e.refTable = table → old ∉ e.refColumns := by
  obtain ⟨t, found, present, other⟩ := rename_found ok unused
  show ((onTable table (renameColumnIn table old new) schema).state.map _ = _) ↔ _
  rw [on_table_map well_formed.names, List.map_map, List.map_inj_left]
  refine forall₂_congr fun u mem => ?_
  have at_own := table_at_mem well_formed.names mem
  by_cases own : u.name = table
  · obtain rfl : u = t := by
      rw [own, found] at at_own
      exact (Option.some.inj at_own).symm
    rw [Function.comp_apply, if_pos own,
      renamed_table_inlines present table (well_formed.tables u mem).columns, List.map_inj_left]
    refine forall₂_congr fun e _ => ?_
    simp only [ForeignKeyEnds.follow, own, ↓reduceIte, ForeignKeyEnds.mk.injEq, true_and]
    exact referenced_side other e
  · rw [Function.comp_apply, if_neg own]
    have unchanged : u.inlineEnds = u.inlineEnds.map id := (List.map_id _).symm
    conv_lhs => lhs; rw [unchanged]
    rw [List.map_inj_left]
    refine forall₂_congr fun e _ => ?_
    rw [id_eq, follow_elsewhere other own e]

theorem rename_column_follows_iff :
    ForeignKeysFollow table old new schema
        (applyAction schema (.renameColumn table old new)).state ↔
      RefersWithin table old schema := by
  constructor
  · intro follows
    exact ⟨(constraints_follow_iff well_formed ok unused).mp follows.constraints,
      (inlines_follow_iff well_formed ok unused).mp follows.inlines⟩
  · intro within
    exact ⟨(constraints_follow_iff well_formed ok unused).mpr within.constraints,
      (inlines_follow_iff well_formed ok unused).mpr within.inlines⟩

end Schema

/-! A team referenced by its members -/

def teamTable (column : String) : TableDef :=
  ⟨"team", none, [.new column (.simple .integer) false], []⟩

def memberTable (column : String) : TableDef :=
  ⟨"member", none, [.new column (.simple .integer) false],
    [.foreignKey none [column] "team" ["id"] none none .default]⟩

theorem member_refers_within :
    ForeignKeysFollow "member" "team_id" "club_id" [teamTable "id", memberTable "team_id"]
      (applyAction [teamTable "id", memberTable "team_id"]
        (.renameColumn "member" "team_id" "club_id")).state := by
  refine (rename_column_follows_iff (by decide) (by decide) ?_).mpr ⟨by decide, by decide⟩
  intro t found
  obtain rfl : memberTable "team_id" = t := Option.some.inj found
  decide

/-- The renamed column is referenced from another table, whose foreign key keeps the old name. -/
theorem referenced_column_left_behind :
    ¬ (WellFormed [teamTable "id", memberTable "team_id"] →
      (applyAction [teamTable "id", memberTable "team_id"]
        (.renameColumn "team" "id" "code")).error = none →
      "code" ∉ (teamTable "id").columnNames →
      ForeignKeysFollow "team" "id" "code" [teamTable "id", memberTable "team_id"]
        (applyAction [teamTable "id", memberTable "team_id"]
          (.renameColumn "team" "id" "code")).state) := by
  intro follows
  have kept := (follows (by decide) (by decide) (by decide)).constraints
  revert kept
  decide

end Vespertide
