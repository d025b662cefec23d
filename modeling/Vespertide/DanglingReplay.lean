import Vespertide.DanglingDrops
import Vespertide.KeptTable
import Vespertide.WellFormedReplay

/-!
What the check for dangling foreign keys keeps of a plan, and what replay keeps.
Both are followed action by action: a key that the plan leaves dangling is
carried by a table exactly as long as the check has it in its sets, in every run
that keeps to the kinds of steps the check accounts for.
-/
namespace Vespertide
open AppendMissing

/-! What is left dangling -/

inductive LostTarget (actions : List MigrationAction) (refTable : String)
    (refColumns : List String) : Option String → Prop
  | table (dropped : .deleteTable refTable ∈ actions) : LostTarget actions refTable refColumns none
  | column {col : String} (stays : .deleteTable refTable ∉ actions) (mem : col ∈ refColumns)
      (dropped : .deleteColumn refTable col ∈ actions) :
      LostTarget actions refTable refColumns (some col)

inductive Loses (actions : List MigrationAction) (owner : String) :
    TableConstraint → DanglingFkDrop → Prop
  | key {lost : Option String} (name : Option String) (columns : List String) {refTable : String}
      {refColumns : List String} (onDelete onUpdate : Option ReferenceAction)
      (strategy : ForeignKeyOrphanStrategy) (target : LostTarget actions refTable refColumns lost) :
      Loses actions owner (.foreignKey name columns refTable refColumns onDelete onUpdate strategy)
        ⟨refTable, lost, owner, name⟩

/-- Some table of the schema carries the key, and the plan drops what it refers to. -/
def LeftDangling (actions : List MigrationAction) (schema : Schema) (d : DanglingFkDrop) : Prop :=
  ∃ t ∈ schema, ∃ c ∈ t.constraints, Loses actions t.name c d

/-- The plan drops the table or a column that the key refers to. -/
def Dangles (actions : List MigrationAction) (c : TableConstraint) : Prop :=
  ∃ reference ∈ referenceOf c, .deleteTable reference.1 ∈ actions ∨
    ∃ col ∈ reference.2, .deleteColumn reference.1 col ∈ actions

def NamesColumns (c : TableConstraint) : Prop := ∀ reference ∈ referenceOf c, reference.2 ≠ []

instance (actions : List MigrationAction) (c : TableConstraint) : Decidable (Dangles actions c) :=
  inferInstanceAs (Decidable (∃ reference ∈ referenceOf c, _))

instance (c : TableConstraint) : Decidable (NamesColumns c) :=
  inferInstanceAs (Decidable (∀ reference ∈ referenceOf c, _))

def constraintsAt (schema : Schema) (name : String) : List TableConstraint :=
  (tableAt schema name).elim [] (·.constraints)

theorem loses_dangles {actions : List MigrationAction} {owner : String} {c : TableConstraint}
    {d : DanglingFkDrop} (loses : Loses actions owner c d) : Dangles actions c := by
  obtain ⟨name, columns, onDelete, onUpdate, strategy, target⟩ := loses
  refine ⟨_, rfl, ?_⟩
  cases target with
  | table dropped => exact .inl dropped
  | column stays mem dropped => exact .inr ⟨_, mem, dropped⟩

theorem loses_renamed {actions : List MigrationAction} {owner old new : String}
    {c : TableConstraint} {d : DanglingFkDrop}
    (same : referenceOf (renameColumnInConstraint old new c) = referenceOf c) :
    Loses actions owner (renameColumnInConstraint old new c) d ↔ Loses actions owner c d := by
  cases c with
  | foreignKey name columns refTable refColumns onDelete onUpdate strategy =>
    have kept : renameColumnRefs old new refColumns = refColumns := by
      simpa [referenceOf, renameColumnInConstraint] using same
    rw [renameColumnInConstraint, kept]
    constructor
    · rintro ⟨_, _, _, _, _, target⟩
      exact .key _ _ _ _ _ target
    · rintro ⟨_, _, _, _, _, target⟩
      exact .key _ _ _ _ _ target
  | _ =>
    unfold renameColumnInConstraint
    constructor <;>
      · intro loses
        cases loses

theorem mem_constraints_at {schema : Schema} (nodup : TableNamesNodup schema) {name : String}
    {c : TableConstraint} :
    c ∈ constraintsAt schema name ↔ ∃ t ∈ schema, t.name = name ∧ c ∈ t.constraints := by
  unfold constraintsAt
  constructor
  · intro mem
    cases found : tableAt schema name with
    | none => simp [found] at mem
    | some t =>
      rw [found] at mem
      exact ⟨t, List.mem_of_find?_eq_some found, (table_at_name found).2, mem⟩
  · intro carried
    obtain ⟨t, here, rfl, mem⟩ := carried
    rw [table_at_mem nodup here]
    exact mem

/-! What the check keeps -/

/-- The keys that an action lists by themselves, as the check reads it. -/
def listed : MigrationAction → List TableConstraint
  | .createTable _ _ constraints => constraints
  | .addConstraint _ constraint => [constraint]
  | _ => []

def Added (done : List MigrationAction) (owner : String) (c : TableConstraint) : Prop :=
  ∃ a ∈ done, actionTable a = owner ∧ c ∈ listed a

/-- The action neither drops a column of the key nor removes a key of its description. -/
structure SparedBy (a : MigrationAction) (owner : String) (c : TableConstraint) : Prop where
  columns : ∀ col ∈ c.columns, a ≠ .deleteColumn owner col
  key : ∀ key ∈ removedFkKey owner c, removedKeyBy a ≠ some key

/-- The key is in the check's set after the actions done. -/
structure Tracked (baseline : Schema) (done : List MigrationAction) (owner : String)
    (c : TableConstraint) : Prop where
  owned : .deleteTable owner ∉ done
  source : (c ∈ constraintsAt baseline owner ∧ ∀ a ∈ done, SparedBy a owner c) ∨ Added done owner c

instance (done : List MigrationAction) (owner : String) (c : TableConstraint) :
    Decidable (Added done owner c) :=
  inferInstanceAs (Decidable (∃ a ∈ done, _))

section Sets
variable {actions : List MigrationAction} {owner table column : String} {c : TableConstraint}

theorem table_dropped : (table, none) ∈ collectDropSet actions ↔ .deleteTable table ∈ actions := by
  simp only [collectDropSet, List.mem_filterMap]
  constructor
  · intro dropped
    obtain ⟨a, mem, drops⟩ := dropped
    cases a <;> simp_all [droppedBy]
  · exact fun mem => ⟨_, mem, rfl⟩

theorem column_dropped :
    (table, some column) ∈ collectDropSet actions ↔ .deleteColumn table column ∈ actions := by
  simp only [collectDropSet, List.mem_filterMap]
  constructor
  · intro dropped
    obtain ⟨a, mem, drops⟩ := dropped
    cases a <;> simp_all [droppedBy]
  · exact fun mem => ⟨_, mem, rfl⟩

theorem spared_by_all : (∀ a ∈ actions, SparedBy a owner c) ↔
    (∀ col ∈ c.columns, .deleteColumn owner col ∉ actions) ∧
      ∀ key ∈ removedFkKey owner c, key ∉ collectExplicitlyRemovedFks actions := by
  simp only [collectExplicitlyRemovedFks, List.mem_filterMap]
  constructor
  · intro spared
    refine ⟨fun col mem dropped => (spared _ dropped).columns col mem rfl, ?_⟩
    intro key own removed
    obtain ⟨a, here, removes⟩ := removed
    exact (spared a here).key key own removes
  · intro kept a here
    refine ⟨fun col mem same => kept.1 col mem (same ▸ here), ?_⟩
    exact fun key own removes => kept.2 key own ⟨a, here, removes⟩

theorem mem_baseline_fks {t : TableDef} {fk : SurvivingFk} :
    fk ∈ baselineFks (collectDropSet actions) (collectExplicitlyRemovedFks actions) t ↔
      .deleteTable t.name ∉ actions ∧ ∃ c ∈ t.constraints,
        (∀ a ∈ actions, SparedBy a t.name c) ∧ survivingFk t.name c = some fk := by
  unfold baselineFks
  by_cases dropped : .deleteTable t.name ∈ actions
  · simp [table_dropped.mpr dropped, dropped]
  · rw [if_neg fun mem => dropped (table_dropped.mp mem), List.mem_filterMap]
    simp only [dropped, not_false_eq_true, true_and, spared_by_all]
    refine exists_congr fun c => and_congr_right fun _ => ?_
    by_cases gone : ∃ col ∈ c.columns, .deleteColumn t.name col ∈ actions
    · simp only [List.any_eq_true, decide_eq_true_eq, column_dropped, gone, ↓reduceIte,
        reduceCtorEq, false_iff]
      obtain ⟨col, mem, here⟩ := gone
      exact fun kept => kept.1.1 col mem here
    · have stay : ∀ col ∈ c.columns, .deleteColumn t.name col ∉ actions := by simpa using gone
      simp only [List.any_eq_true, decide_eq_true_eq, column_dropped, gone, ↓reduceIte,
        Option.any_eq_true]
      by_cases removed : ∃ key, removedFkKey t.name c = some key ∧
          key ∈ collectExplicitlyRemovedFks actions
      · simp only [removed, ↓reduceIte, reduceCtorEq, false_iff]
        obtain ⟨key, own, here⟩ := removed
        exact fun kept => kept.1.2 key own here
      · rw [if_neg removed]
        have kept : ∀ key ∈ removedFkKey t.name c, key ∉ collectExplicitlyRemovedFks actions :=
          fun key own here => removed ⟨key, own, here⟩
        exact (and_iff_right ⟨stay, kept⟩).symm

theorem mem_introduced_fks {a : MigrationAction} {fk : SurvivingFk} :
    fk ∈ introducedFks (collectDropSet actions) a ↔
      .deleteTable (actionTable a) ∉ actions ∧
        ∃ c ∈ listed a, survivingFk (actionTable a) c = some fk := by
  cases a with
  | createTable table columns constraints =>
    by_cases dropped : .deleteTable table ∈ actions <;>
      simp [introducedFks, listed, actionTable, MigrationAction.tableName, table_dropped, dropped]
  | addConstraint table constraint =>
    by_cases dropped : .deleteTable table ∈ actions <;>
      simp [introducedFks, listed, actionTable, MigrationAction.tableName, table_dropped, dropped]
  | _ => simp [introducedFks, listed]

theorem mem_surviving {baseline : Schema} (nodup : TableNamesNodup baseline) (fk : SurvivingFk) :
    fk ∈ collectSurvivingFks actions baseline (collectDropSet actions) ↔
      ∃ owner c, Tracked baseline actions owner c ∧ survivingFk owner c = some fk := by
  simp only [collectSurvivingFks, List.mem_append, List.mem_flatMap, mem_baseline_fks,
    mem_introduced_fks]
  constructor
  · intro survives
    rcases survives with ⟨t, here, owned, c, mem, spared, own⟩ | ⟨a, here, owned, c, mem, own⟩
    · exact ⟨t.name, c, ⟨owned, .inl ⟨(mem_constraints_at nodup).mpr ⟨t, here, rfl, mem⟩, spared⟩⟩,
        own⟩
    · exact ⟨actionTable a, c, ⟨owned, .inr ⟨a, here, rfl, mem⟩⟩, own⟩
  · intro tracked
    obtain ⟨owner, c, ⟨owned, source⟩, own⟩ := tracked
    rcases source with ⟨mem, spared⟩ | ⟨a, here, rfl, mem⟩
    · obtain ⟨t, here, rfl, carried⟩ := (mem_constraints_at nodup).mp mem
      exact .inl ⟨t, here, owned, c, carried, spared, own⟩
    · exact .inr ⟨a, here, owned, c, mem, own⟩

theorem ref_target_dropped {refTable col : String} {refColumns : List String}
    (mem : col ∈ refColumns) {lost : Option String} :
    lost ∈ (refTargetDropped (collectDropSet actions) refTable col).map
      DroppedTarget.droppedColumn → LostTarget actions refTable refColumns lost := by
  intro dropped
  simp only [refTargetDropped, table_dropped, column_dropped] at dropped
  split at dropped
  · rename_i whole
    obtain rfl := Option.some.inj dropped
    exact .table whole
  · rename_i stays
    split at dropped
    · rename_i part
      obtain rfl := Option.some.inj dropped
      exact .column stays mem part
    · cases dropped

theorem mem_reports {name : Option String} {columns : List String} {refTable : String}
    {refColumns : List String} {onDelete onUpdate : Option ReferenceAction}
    {strategy : ForeignKeyOrphanStrategy} {d : DanglingFkDrop} :
    d ∈ danglingReports (collectDropSet actions) ⟨owner, name, refTable, refColumns⟩ ↔
      refColumns ≠ [] ∧ Loses actions owner
        (.foreignKey name columns refTable refColumns onDelete onUpdate strategy) d := by
  simp only [danglingReports, List.mem_filterMap, Option.map_eq_some_iff]
  constructor
  · intro reported
    obtain ⟨col, mem, dropped, target, rfl⟩ := reported
    refine ⟨List.ne_nil_of_mem mem, .key name columns onDelete onUpdate strategy ?_⟩
    exact ref_target_dropped mem (by rw [target]; rfl)
  · rintro ⟨filled, loses⟩
    cases loses with
    | key _ _ _ _ _ target =>
      cases target with
      | table dropped =>
        obtain ⟨col, rest, rfl⟩ := List.exists_cons_of_ne_nil filled
        refine ⟨col, List.mem_cons_self, .wholeTable, ?_, rfl⟩
        rw [refTargetDropped, if_pos (table_dropped.mpr dropped)]
      | column stays mem dropped =>
        refine ⟨_, mem, .column _, ?_, rfl⟩
        rw [refTargetDropped, if_neg fun here => stays (table_dropped.mp here),
          if_pos (column_dropped.mpr dropped)]

theorem mem_dangling_drops {plan : MigrationPlan} {baseline : Schema}
    (nodup : TableNamesNodup baseline) {d : DanglingFkDrop} :
    d ∈ findDanglingFkDrops plan baseline ↔
      ∃ owner c, Tracked baseline plan.actions owner c ∧ NamesColumns c ∧
        Loses plan.actions owner c d := by
  have reported : d ∈ findDanglingFkDrops plan baseline ↔
      ∃ fk ∈ collectSurvivingFks plan.actions baseline (collectDropSet plan.actions),
        d ∈ danglingReports (collectDropSet plan.actions) fk := by
    unfold findDanglingFkDrops
    by_cases nothing : collectDropSet plan.actions = []
    · simp [nothing, danglingReports, refTargetDropped]
    · simp only [nothing, ↓reduceIte, List.mem_mergeSort, List.mem_dedup, List.mem_flatMap]
  rw [reported]
  constructor
  · intro there
    obtain ⟨fk, survives, mem⟩ := there
    obtain ⟨owner, c, tracked, own⟩ := (mem_surviving nodup fk).mp survives
    cases c with
    | foreignKey name columns refTable refColumns onDelete onUpdate strategy =>
      obtain rfl := Option.some.inj own
      obtain ⟨filled, loses⟩ := mem_reports.mp mem
      refine ⟨owner, _, tracked, ?_, loses⟩
      intro reference refers
      obtain rfl := Option.some.inj refers
      exact filled
    | _ => cases own
  · intro there
    obtain ⟨owner, c, tracked, named, loses⟩ := there
    cases loses with
    | key name columns onDelete onUpdate strategy target =>
      refine ⟨_, (mem_surviving nodup _).mpr ⟨owner, _, tracked, rfl⟩, ?_⟩
      exact mem_reports.mpr ⟨named _ rfl, .key name columns onDelete onUpdate strategy target⟩

end Sets

/-! One action at a time -/

section Steps
variable {baseline : Schema} {done : List MigrationAction} {a : MigrationAction} {owner : String}
  {c : TableConstraint}

theorem tracked_snoc : Tracked baseline (done ++ [a]) owner c ↔
    a ≠ .deleteTable owner ∧ .deleteTable owner ∉ done ∧
      ((c ∈ constraintsAt baseline owner ∧ (∀ b ∈ done, SparedBy b owner c) ∧ SparedBy a owner c) ∨
        Added done owner c ∨ actionTable a = owner ∧ c ∈ listed a) := by
  have added : Added (done ++ [a]) owner c ↔
      Added done owner c ∨ actionTable a = owner ∧ c ∈ listed a := by
    simp [Added, or_and_right, exists_or]
  constructor
  · intro tracked
    obtain ⟨owned, source⟩ := tracked
    rw [added, List.forall_mem_append, List.forall_mem_singleton] at source
    simp only [List.mem_append, List.mem_singleton, not_or] at owned
    exact ⟨Ne.symm owned.2, owned.1, source⟩
  · intro tracked
    obtain ⟨alive, owned, source⟩ := tracked
    refine ⟨by simp [owned, alive.symm], ?_⟩
    rwa [added, List.forall_mem_append, List.forall_mem_singleton]

/-- The action leaves the check's record of the key alone. -/
theorem tracked_kept (alive : a ≠ .deleteTable owner) (spared : SparedBy a owner c)
    (unlisted : actionTable a = owner → c ∉ listed a) :
    Tracked baseline (done ++ [a]) owner c ↔ Tracked baseline done owner c := by
  rw [tracked_snoc]
  constructor
  · intro tracked
    obtain ⟨_, owned, ⟨mem, all, _⟩ | added | ⟨own, here⟩⟩ := tracked
    · exact ⟨owned, .inl ⟨mem, all⟩⟩
    · exact ⟨owned, .inr added⟩
    · exact absurd here (unlisted own)
  · intro tracked
    obtain ⟨owned, ⟨mem, all⟩ | added⟩ := tracked
    · exact ⟨alive, owned, .inl ⟨mem, all, spared⟩⟩
    · exact ⟨alive, owned, .inr (.inl added)⟩

theorem tracked_gone (lost : ¬ SparedBy a owner c) (old : ¬ Added done owner c)
    (unlisted : c ∉ listed a) : ¬ Tracked baseline (done ++ [a]) owner c := by
  intro tracked
  obtain ⟨_, _, ⟨_, _, spared⟩ | added | ⟨_, here⟩⟩ := tracked_snoc.mp tracked
  · exact lost spared
  · exact old added
  · exact unlisted here

theorem removed_owner {key : RemovedFkKey} (own : key ∈ removedFkKey owner c) : key.1 = owner := by
  cases c <;> first | (obtain rfl := Option.some.inj own; rfl) | cases own

theorem spared_elsewhere (other : actionTable a ≠ owner) : SparedBy a owner c := by
  refine ⟨?_, ?_⟩
  · rintro col _ rfl
    exact other rfl
  · intro key own removes
    have owned := removed_owner own
    apply other
    cases a with
    | removeConstraint table old => exact (removed_owner removes).symm.trans owned
    | replaceConstraint table old new => exact (removed_owner removes).symm.trans owned
    | _ => cases removes

def editedConstraints (t : TableDef) : MigrationAction → List TableConstraint
  | .addColumn _ column _ => promoted { t with columns := t.columns ++ [column] }
  | .deleteColumn _ column => dropColumnFromConstraints t.constraints column
  | .renameColumn _ old new => t.constraints.map (renameColumnInConstraint old new)
  | .addConstraint _ constraint =>
      if constraint ∈ t.constraints then t.constraints else t.constraints ++ [constraint]
  | .removeConstraint _ constraint => t.constraints.filter (· ≠ constraint)
  | .replaceConstraint _ old new => replaceFirst old new t.constraints
  | _ => t.constraints

theorem edited_constraints {t t' : TableDef} (edited : editStep a t = some t') :
    t'.constraints = editedConstraints t a := by
  unfold editStep Outcome.toOption at edited
  split at edited
  · rename_i ok
    obtain rfl := Option.some.inj edited
    cases a with
    | addColumn table column fillWith =>
      simp only [tableEdit, addColumnTo] at ok ⊢
      split
      · rename_i used
        simp [used, Outcome.fail] at ok
      · rename_i fresh
        simp only [fresh, Bool.false_eq_true, ↓reduceIte] at ok
        split
        · rename_i failed
          simp [failed, Outcome.fail] at ok
        · rename_i normal
          exact congrArg TableDef.constraints (normalize_value normal)
    | deleteColumn table column =>
      simp only [tableEdit, deleteColumnFrom] at ok ⊢
      split
      · rename_i same
        rw [if_pos same] at ok
        cases ok
      · rfl
    | renameColumn table old new =>
      simp only [tableEdit, renameColumnIn] at ok ⊢
      split
      · rfl
      · rename_i absent
        simp [absent, Outcome.fail] at ok
    | replaceConstraint table old new =>
      simp only [tableEdit, replaceConstraintIn] at ok ⊢
      split
      · rfl
      · rename_i absent
        simp [absent, Outcome.fail] at ok
    | addConstraint table constraint =>
      simp only [tableEdit, addConstraintTo, Outcome.ok, editedConstraints]
      split <;> rfl
    | removeConstraint table constraint => rfl
    | modifyColumnType table column newType => simp only [tableEdit, onColumn]; split <;> rfl
    | modifyColumnNullable table column nullable => simp only [tableEdit, onColumn]; split <;> rfl
    | modifyColumnDefault table column newDefault => simp only [tableEdit, onColumn]; split <;> rfl
    | modifyColumnComment table column newComment => simp only [tableEdit, onColumn]; split <;> rfl
    | remapEnumValues table column mapping => simp only [tableEdit, onColumn]; split <;> rfl
    | _ => rfl
  · cases edited

end Steps

/-! The steps that the check accounts for -/

/-- A dangling key of the table that has the description of `old` is `old` itself, and the
    plan has not added it before. -/
def RemovesOnly (actions done : List MigrationAction) (s : Schema) (table : String)
    (old : TableConstraint) : Prop :=
  ∀ c ∈ constraintsAt s table, Dangles actions c → removedFkKey table c = removedFkKey table old →
    c = old ∧ ¬ Added done table c

/-- The columns of the table that the next steps drop, one after the other. -/
def nextDrops (table : String) : List MigrationAction → List String
  | .deleteColumn t column :: rest => if t = table then column :: nextDrops table rest else []
  | _ => []

/-- No step is about the table, and no table gets another name. -/
def LeftAlone (rest : List MigrationAction) (table : String) : Prop :=
  ∀ a ∈ rest, actionTable a ≠ table ∧ ∀ old new, a ≠ .renameTable old new

instance LeftAlone.decide (rest : List MigrationAction) (table : String) :
    Decidable (LeftAlone rest table) :=
  have : DecidablePred fun a : MigrationAction => ∀ old new, a ≠ .renameTable old new
    | .renameTable old new => .isFalse fun other => other old new rfl
    | .createTable _ _ _ | .deleteTable _ | .addColumn _ _ _ | .renameColumn _ _ _
    | .deleteColumn _ _ | .modifyColumnType _ _ _ _ _ _ | .modifyColumnNullable _ _ _ _ _
    | .modifyColumnDefault _ _ _ _ | .modifyColumnComment _ _ _ | .addConstraint _ _
    | .removeConstraint _ _ | .replaceConstraint _ _ _ | .remapEnumValues _ _ _ | .rawSql _
    | .dataMigration _ _ => .isTrue nofun
  inferInstanceAs (Decidable (∀ a ∈ rest, _))

/-- What a step may do to the keys that the plan leaves dangling, between the actions done and
    those that are left. -/
def Followed (actions done rest : List MigrationAction) (s : Schema) : MigrationAction → Prop
  | .createTable table columns constraints =>
      ∀ c ∈ promoted ⟨table, none, columns, constraints⟩, Dangles actions c →
        c ∈ constraints ∧ .deleteTable table ∉ done ∧ NamesColumns c
  | .addConstraint table constraint => Dangles actions constraint →
      .deleteTable table ∉ done ∧ NamesColumns constraint
  | .addColumn table column _ => ∀ t ∈ tableAt s table,
      ∀ c ∈ promoted { t with columns := t.columns ++ [column] }, Dangles actions c →
        c ∈ t.constraints
  | .deleteColumn table column => ∀ c ∈ constraintsAt s table, Dangles actions c →
      c.columns ≠ [] ∧ (column ∈ c.columns →
        (∀ col ∈ c.columns, col ∈ column :: nextDrops table rest) ∧ ¬ Added done table c)
  | .removeConstraint table old => RemovesOnly actions done s table old
  | .replaceConstraint table old new => RemovesOnly actions done s table old ∧
      (Dangles actions old → old ∉ (constraintsAt s table).erase old) ∧
      (Dangles actions new → new ≠ old ∧ new ∈ constraintsAt s table)
  | .renameColumn table old new => ∀ c ∈ constraintsAt s table,
      referenceOf (renameColumnInConstraint old new c) = referenceOf c ∧
          (renameColumnInConstraint old new c = c ∨ LeftAlone rest table) ∨
        ¬ Dangles actions c ∧ ¬ Dangles actions (renameColumnInConstraint old new c)
  | .renameTable old new => ∀ t ∈ s, ∀ c ∈ t.constraints,
      t.name ≠ old ∧ retargetConstraint old new c = c ∨
        ¬ Dangles actions c ∧ ¬ Dangles actions (retargetConstraint old new c)
  | _ => True

instance (actions done : List MigrationAction) (s : Schema) (table : String)
    (old : TableConstraint) : Decidable (RemovesOnly actions done s table old) :=
  inferInstanceAs (Decidable (∀ c ∈ constraintsAt s table, _))

instance Followed.decide (actions done rest : List MigrationAction) (s : Schema) :
    ∀ a, Decidable (Followed actions done rest s a)
  | .createTable table columns constraints =>
      inferInstanceAs (Decidable (∀ c ∈ promoted ⟨table, none, columns, constraints⟩, _))
  | .addConstraint _ constraint => inferInstanceAs (Decidable (Dangles actions constraint → _))
  | .addColumn table _ _ => inferInstanceAs (Decidable (∀ t ∈ tableAt s table, _))
  | .deleteColumn table _ => inferInstanceAs (Decidable (∀ c ∈ constraintsAt s table, _))
  | .removeConstraint table old =>
      inferInstanceAs (Decidable (RemovesOnly actions done s table old))
  | .replaceConstraint table old _ =>
      inferInstanceAs (Decidable (RemovesOnly actions done s table old ∧ _))
  | .renameColumn table _ _ => inferInstanceAs (Decidable (∀ c ∈ constraintsAt s table, _))
  | .renameTable _ _ => inferInstanceAs (Decidable (∀ t ∈ s, _))
  | .deleteTable _ | .modifyColumnType _ _ _ _ _ _ | .modifyColumnNullable _ _ _ _ _
  | .modifyColumnDefault _ _ _ _ | .modifyColumnComment _ _ _ | .remapEnumValues _ _ _
  | .rawSql _ | .dataMigration _ _ => .isTrue trivial

def FollowedFrom (actions : List MigrationAction) :
    List MigrationAction → Schema → List MigrationAction → Prop
  | _, _, [] => True
  | done, s, a :: rest => Followed actions done rest s a ∧
      FollowedFrom actions (done ++ [a]) (applyAction s a).state rest

instance FollowedFrom.decide (actions : List MigrationAction) :
    ∀ done s rest, Decidable (FollowedFrom actions done s rest)
  | _, _, [] => .isTrue trivial
  | done, s, a :: rest =>
      have := FollowedFrom.decide actions (done ++ [a]) (applyAction s a).state rest
      inferInstanceAs (Decidable (_ ∧ _))

/-- The next steps drop all columns of the key. -/
def Leaving (rest : List MigrationAction) (owner : String) (c : TableConstraint) : Prop :=
  c.columns ≠ [] ∧ ∀ col ∈ c.columns, col ∈ nextDrops owner rest

/-- The check has the dangling keys that the table carries, but for what is left of a key
    whose columns go one after the other. -/
structure KeysInStep (actions : List MigrationAction) (baseline : Schema)
    (done rest : List MigrationAction) (s : Schema) (owner : String) : Prop where
  carried : ∀ c, Dangles actions c → Tracked baseline done owner c → c ∈ constraintsAt s owner
  tracked : ∀ c, Dangles actions c → c ∈ constraintsAt s owner →
    Tracked baseline done owner c ∨ Leaving rest owner c
  named : ∀ c, Dangles actions c → c ∈ constraintsAt s owner → NamesColumns c

/-- The dangling keys of the table and of the check call for the same reports. -/
def ReportsAlike (actions : List MigrationAction) (baseline : Schema)
    (done : List MigrationAction) (s : Schema) (owner : String) : Prop :=
  ∀ d, (∃ c ∈ constraintsAt s owner, Loses actions owner c d) ↔
    ∃ c, Tracked baseline done owner c ∧ NamesColumns c ∧ Loses actions owner c d

def InStep (actions : List MigrationAction) (baseline : Schema)
    (done rest : List MigrationAction) (s : Schema) : Prop :=
  ∀ owner, KeysInStep actions baseline done rest s owner ∨
    LeftAlone rest owner ∧ ReportsAlike actions baseline done s owner

section Following
variable {actions : List MigrationAction} {baseline : Schema} {done rest : List MigrationAction}
  {s s' : Schema} {a : MigrationAction} {owner table : String} {c : TableConstraint}

theorem tracked_neutral (drops : droppedBy a = none) (removes : removedKeyBy a = none)
    (lists : listed a = []) :
    Tracked baseline (done ++ [a]) owner c ↔ Tracked baseline done owner c := by
  refine tracked_kept ?_ ⟨?_, ?_⟩ (by simp [lists])
  · rintro rfl
    cases drops
  · rintro col _ rfl
    cases drops
  · simp [removes]

theorem tracked_before (tracked : Tracked baseline (done ++ [a]) owner c) :
    Tracked baseline done owner c ∨ actionTable a = owner ∧ c ∈ listed a := by
  obtain ⟨_, owned, ⟨mem, all, _⟩ | added | here⟩ := tracked_snoc.mp tracked
  · exact .inl ⟨owned, .inl ⟨mem, all⟩⟩
  · exact .inl ⟨owned, .inr added⟩
  · exact .inr here

theorem dangling_key (dangles : Dangles actions c) (owner : String) :
    ∃ key, removedFkKey owner c = some key := by
  obtain ⟨reference, refers, _⟩ := dangles
  cases c with
  | foreignKey name columns refTable refColumns onDelete onUpdate strategy => exact ⟨_, rfl⟩
  | _ => cases refers

theorem listed_named (followed : Followed actions done rest s a) (dangles : Dangles actions c)
    (here : c ∈ listed a) : NamesColumns c := by
  cases a with
  | createTable table columns constraints =>
    exact (followed c (mem_append_missing_left here) dangles).2.2
  | addConstraint table constraint =>
    obtain rfl := List.mem_singleton.mp here
    exact (followed dangles).2
  | _ => cases here

theorem drop_column_reference {column : String} {d : TableConstraint}
    (left : dropColumnFromConstraint column d = some c) : referenceOf c = referenceOf d := by
  cases d
  case check name expr strategy =>
    obtain rfl := Option.some.inj left
    rfl
  all_goals
    simp only [dropColumnFromConstraint] at left
    split at left
    · cases left
    · obtain rfl := Option.some.inj left
      rfl

/-! The table an edit is about -/

section Edits
variable {t : TableDef} (found : tableAt s table = some t) (dangles : Dangles actions c)
  (agree : c ∈ t.constraints ↔ Tracked baseline done table c)
include found dangles agree

theorem followed_add_column {column : ColumnDef} {fillWith : Option String}
    (followed : Followed actions done rest s (.addColumn table column fillWith)) :
    c ∈ promoted { t with columns := t.columns ++ [column] } ↔
      Tracked baseline (done ++ [MigrationAction.addColumn table column fillWith]) table c := by
  rw [tracked_neutral rfl rfl rfl, ← agree]
  constructor
  · exact fun mem => followed t found c mem dangles
  · exact mem_append_missing_left

theorem followed_rename_column {old new : String}
    (followed : Followed actions done rest s (.renameColumn table old new))
    (busy : ¬ LeftAlone rest table) :
    c ∈ t.constraints.map (renameColumnInConstraint old new) ↔
      Tracked baseline (done ++ [.renameColumn table old new]) table c := by
  rw [tracked_neutral rfl rfl rfl, ← agree, List.mem_map]
  simp only [Followed, constraintsAt, found, Option.elim_some] at followed
  constructor
  · intro mem
    obtain ⟨d, here, rfl⟩ := mem
    rcases followed d here with ⟨-, same⟩ | ⟨_, safe⟩
    · rwa [same.resolve_right busy]
    · exact absurd dangles safe
  · intro mem
    rcases followed c mem with ⟨-, same⟩ | ⟨safe, _⟩
    · exact ⟨c, mem, same.resolve_right busy⟩
    · exact absurd dangles safe

omit found in
theorem followed_add_constraint {constraint : TableConstraint}
    (followed : Followed actions done rest s (.addConstraint table constraint)) :
    c ∈ (if constraint ∈ t.constraints then t.constraints else t.constraints ++ [constraint]) ↔
      Tracked baseline (done ++ [MigrationAction.addConstraint table constraint]) table c := by
  have merged : c ∈ (if constraint ∈ t.constraints then t.constraints
      else t.constraints ++ [constraint]) ↔ c ∈ t.constraints ∨ c = constraint := by
    split <;> grind
  rw [merged]
  constructor
  · intro carried
    by_cases mem : c ∈ t.constraints
    · obtain ⟨owned, source⟩ := agree.mp mem
      refine tracked_snoc.mpr ⟨nofun, owned, ?_⟩
      refine source.imp ?_ .inl
      exact fun there => ⟨there.1, there.2, nofun, nofun⟩
    · obtain rfl := carried.resolve_left mem
      exact tracked_snoc.mpr ⟨nofun, (followed dangles).1, .inr (.inr ⟨rfl, by simp [listed]⟩)⟩
  · intro tracked
    rcases tracked_before tracked with before | ⟨_, here⟩
    · exact .inl (agree.mpr before)
    · exact .inr (List.mem_singleton.mp here)

theorem followed_remove {old : TableConstraint} (removes : removedKeyBy a = removedFkKey table old)
    (lists : listed a = []) (drops : droppedBy a = none)
    (followed : RemovesOnly actions done s table old) :
    c ∈ t.constraints ∧ c ≠ old ↔ Tracked baseline (done ++ [a]) table c := by
  simp only [RemovesOnly, constraintsAt, found, Option.elim_some] at followed
  constructor
  · intro carried
    obtain ⟨mem, other⟩ := carried
    refine (tracked_kept ?_ ⟨?_, ?_⟩ (by simp [lists])).mpr (agree.mp mem)
    · rintro rfl
      cases drops
    · rintro col _ rfl
      cases drops
    · intro key mine same
      exact other (followed c mem dangles (mine.trans (removes.symm.trans same).symm)).1
  · intro tracked
    have mem := agree.mpr ((tracked_before tracked).resolve_right (by simp [lists]))
    refine ⟨mem, ?_⟩
    rintro rfl
    obtain ⟨key, mine⟩ := dangling_key dangles table
    refine tracked_gone ?_ (followed c mem dangles rfl).2 (by simp [lists]) tracked
    exact fun spared => spared.key key mine (removes.trans mine)

theorem followed_replace {old new : TableConstraint} (present : old ∈ t.constraints)
    (followed : Followed actions done rest s (.replaceConstraint table old new)) :
    c ∈ replaceFirst old new t.constraints ↔
      Tracked baseline (done ++ [MigrationAction.replaceConstraint table old new]) table c := by
  obtain ⟨removes_only, once, carried⟩ := followed
  rw [replace_first_mem present, ← followed_remove found dangles agree rfl rfl rfl removes_only]
  simp only [constraintsAt, found, Option.elim_some] at once carried
  constructor
  · intro mem
    rcases mem with rfl | left
    · obtain ⟨other, here⟩ := carried dangles
      exact ⟨here, other⟩
    · refine ⟨List.mem_of_mem_erase left, ?_⟩
      rintro rfl
      exact once dangles left
  · intro kept
    exact .inr ((List.mem_erase_of_ne kept.2).mpr kept.1)

end Edits

/-! Every table -/

theorem followed_own {t' : Option TableDef} (is_local : isLocal a = true)
    (stays : ∀ column, a ≠ .deleteColumn (actionTable a) column)
    (busy : ∀ old new, a = .renameColumn (actionTable a) old new →
      ¬ LeftAlone rest (actionTable a))
    (followed : Followed actions done rest s a)
    (stepped : stepTable a (tableAt s (actionTable a)) = some t') (dangles : Dangles actions c)
    (agree : c ∈ constraintsAt s (actionTable a) ↔ Tracked baseline done (actionTable a) c) :
    c ∈ t'.elim [] (·.constraints) ↔ Tracked baseline (done ++ [a]) (actionTable a) c := by
  unfold constraintsAt at agree
  by_cases edit : isEdit a = true
  · cases found : tableAt s (actionTable a) with
    | none =>
      rw [found] at stepped
      cases a <;> first | cases stepped | cases edit
    | some t =>
      rw [found] at agree stepped
      rw [step_table_edit edit] at stepped
      obtain ⟨u, edited, rfl⟩ := Option.map_eq_some_iff.mp stepped
      rw [Option.elim_some, edited_constraints edited]
      cases a with
      | addColumn table column fillWith => exact followed_add_column found dangles agree followed
      | deleteColumn table column => exact absurd rfl (stays column)
      | renameColumn table old new =>
        exact followed_rename_column found dangles agree followed (busy old new rfl)
      | addConstraint table constraint => exact followed_add_constraint dangles agree followed
      | removeConstraint table old =>
        rw [← followed_remove found dangles agree rfl rfl rfl followed]
        simp [editedConstraints]
      | replaceConstraint table old new =>
        refine followed_replace found dangles agree ?_ followed
        by_contra absent
        simp [editStep, tableEdit, replaceConstraintIn, absent, Outcome.fail,
          Outcome.toOption] at edited
      | _ => first | exact agree.trans (tracked_neutral rfl rfl rfl).symm | cases edit
  · cases a with
    | createTable table columns constraints =>
      cases free : tableAt s table with
      | some t => simp [stepTable, actionTable, MigrationAction.tableName, free] at stepped
      | none =>
        rw [show tableAt s (actionTable (.createTable table columns constraints)) = none from free]
          at agree stepped
        -- a key of a table that is not there is not tracked either
        have untracked : ¬ Tracked baseline done table c := fun held => by cases agree.mpr held
        simp only [stepTable, Option.isSome_none, Bool.false_eq_true, ↓reduceIte] at stepped
        cases normal : (TableDef.mk table none columns constraints).normalize with
        | error e => simp [normal] at stepped
        | ok t =>
          rw [normal] at stepped
          obtain rfl := Option.some.inj stepped
          obtain rfl := normalize_value normal
          constructor
          · intro mem
            obtain ⟨own, alive, _⟩ := followed c mem dangles
            exact tracked_snoc.mpr ⟨by simp, alive, .inr (.inr ⟨rfl, own⟩)⟩
          · intro tracked
            rcases tracked_before tracked with before | ⟨_, own⟩
            · exact absurd before untracked
            · exact mem_append_missing_left own
    | deleteTable table =>
      have gone : t' = none := by
        unfold stepTable at stepped
        split at stepped <;> simp_all
      subst gone
      simp only [Option.elim_none, List.not_mem_nil, false_iff]
      exact fun tracked => (tracked_snoc.mp tracked).1 rfl
    | _ => first | exact absurd rfl edit | cases is_local

theorem followed_rename_table {old new : String} (nodup : TableNamesNodup s)
    (followed : Followed actions done rest s (.renameTable old new))
    (ok : (renameTable s old new).toExcept = .ok s') (dangles : Dangles actions c) :
    c ∈ constraintsAt s' owner ↔ c ∈ constraintsAt s owner := by
  rw [mem_constraints_at nodup, mem_constraints_at (rename_nodup nodup ok)]
  simp only [renameTable] at ok
  split at ok
  · simp [Outcome.fail, Outcome.toExcept] at ok
  · cases found : tableAt s old with
    | none => simp [on_table_missing found, Outcome.fail, Outcome.toExcept] at ok
    | some t =>
      obtain ⟨named, before, after, rfl, others⟩ := table_at_split found
      rw [on_table_split named others] at ok
      obtain rfl := Except.ok.inj ok
      have stays : ∀ u ∈ before ++ t :: after, c ∈ u.constraints →
          u.name ≠ old ∧ retargetConstraint old new c = c := fun u here mem =>
        (followed u here c mem).resolve_right fun safe => safe.1 dangles
      have came : ∀ u ∈ before ++ t :: after, ∀ d ∈ u.constraints,
          retargetConstraint old new d = c → u.name ≠ old ∧ d = c := by
        rintro u here d mem rfl
        obtain ⟨other, same⟩ := (followed u here d mem).resolve_right fun safe => safe.2 dangles
        exact ⟨other, same.symm⟩
      simp only [Outcome.ok, List.mem_map, List.mem_append, List.mem_cons]
      constructor
      · rintro ⟨_, ⟨u, here, rfl⟩, rfl, mem⟩
        obtain ⟨d, own, back⟩ := List.mem_map.mp mem
        rcases here with early | rfl | late
        · obtain ⟨_, rfl⟩ := came u (by simp [early]) d own back
          exact ⟨u, .inl early, rfl, own⟩
        · exact absurd named (came t (by simp) d own back).1
        · obtain ⟨_, rfl⟩ := came u (by simp [late]) d own back
          exact ⟨u, .inr (.inr late), rfl, own⟩
      · rintro ⟨u, here, rfl, mem⟩
        obtain ⟨other, same⟩ := stays u (by simpa using here) mem
        rcases here with early | rfl | late
        · exact ⟨_, ⟨u, .inl early, rfl⟩, rfl, List.mem_map.mpr ⟨c, mem, same⟩⟩
        · exact absurd named other
        · exact ⟨_, ⟨u, .inr (.inr late), rfl⟩, rfl, List.mem_map.mpr ⟨c, mem, same⟩⟩

theorem tracked_elsewhere (other : actionTable a ≠ owner) :
    Tracked baseline (done ++ [a]) owner c ↔ Tracked baseline done owner c := by
  refine tracked_kept ?_ (spared_elsewhere other) fun here => absurd here other
  rintro rfl
  exact other rfl

theorem followed_agrees (nodup : TableNamesNodup s)
    (stays : ∀ column, a ≠ .deleteColumn owner column)
    (busy : ∀ old new, a = .renameColumn owner old new → ¬ LeftAlone rest owner)
    (followed : Followed actions done rest s a) (ok : (applyAction s a).toExcept = .ok s')
    (dangles : Dangles actions c)
    (agree : c ∈ constraintsAt s owner ↔ Tracked baseline done owner c) :
    c ∈ constraintsAt s' owner ↔ Tracked baseline (done ++ [a]) owner c := by
  by_cases is_local : isLocal a = true
  · obtain ⟨t', stepped, updated⟩ := local_step nodup is_local ok
    unfold constraintsAt
    rw [updated]
    by_cases own : actionTable a = owner
    · subst own
      rw [Function.update_self]
      exact followed_own is_local stays busy followed stepped dangles agree
    · rw [Function.update_of_ne (Ne.symm own), tracked_elsewhere own]
      exact agree
  · cases a with
    | renameTable old new =>
      rw [followed_rename_table nodup followed ok dangles, tracked_neutral rfl rfl rfl]
      exact agree
    | rawSql sql =>
      obtain rfl := Except.ok.inj ok
      rwa [tracked_neutral rfl rfl rfl]
    | dataMigration sql description =>
      obtain rfl := Except.ok.inj ok
      rwa [tracked_neutral rfl rfl rfl]
    | _ => exact absurd rfl is_local

/-! A table whose keys are not followed one by one -/

theorem edited_at (nodup : TableNamesNodup s) (edit : isEdit a = true) (is_local : isLocal a = true)
    (own : actionTable a = owner) (ok : (applyAction s a).toExcept = .ok s') :
    ∃ t : TableDef, constraintsAt s owner = t.constraints ∧
      constraintsAt s' owner = editedConstraints t a := by
  subst own
  obtain ⟨t', stepped, updated⟩ := local_step nodup is_local ok
  cases found : tableAt s (actionTable a) with
  | none =>
    rw [found] at stepped
    cases a <;> first | cases stepped | cases edit
  | some t =>
    rw [found, step_table_edit edit] at stepped
    obtain ⟨u, edited, rfl⟩ := Option.map_eq_some_iff.mp stepped
    refine ⟨t, by rw [constraintsAt, found, Option.elim_some], ?_⟩
    rw [constraintsAt, updated, Function.update_self, Option.elim_some, edited_constraints edited]

theorem constraints_elsewhere (nodup : TableNamesNodup s) (other : actionTable a ≠ owner)
    (named : ∀ old new, a ≠ .renameTable old new) (ok : (applyAction s a).toExcept = .ok s') :
    constraintsAt s' owner = constraintsAt s owner := by
  by_cases is_local : isLocal a = true
  · obtain ⟨t', stepped, updated⟩ := local_step nodup is_local ok
    rw [constraintsAt, updated, Function.update_of_ne (Ne.symm other), constraintsAt]
  · cases a with
    | renameTable old new => exact absurd rfl (named old new)
    | rawSql sql =>
      obtain rfl := Except.ok.inj ok
      rfl
    | dataMigration sql description =>
      obtain rfl := Except.ok.inj ok
      rfl
    | _ => exact absurd rfl is_local

theorem leaving_next (leaving : Leaving (a :: rest) owner c) :
    ∃ column, a = .deleteColumn owner column := by
  obtain ⟨filled, next⟩ := leaving
  obtain ⟨col, mem⟩ := List.exists_mem_of_ne_nil _ filled
  have here := next col mem
  unfold nextDrops at here
  split at here
  · rename_i table column rest' same
    split at here
    · rename_i own
      obtain ⟨rfl, -⟩ := List.cons.inj same
      exact ⟨column, own ▸ rfl⟩
    · cases here
  · cases here

theorem KeysInStep.agree (step : KeysInStep actions baseline done rest s owner)
    (still : ∀ c, ¬ Leaving rest owner c) (dangles : Dangles actions c) :
    c ∈ constraintsAt s owner ↔ Tracked baseline done owner c :=
  ⟨fun mem => (step.tracked c dangles mem).resolve_right (still c), step.carried c dangles⟩

theorem KeysInStep.reports (step : KeysInStep actions baseline done rest s owner)
    (still : ∀ c, ¬ Leaving rest owner c) : ReportsAlike actions baseline done s owner := by
  intro d
  constructor
  · rintro ⟨c, mem, loses⟩
    have dangles := loses_dangles loses
    exact ⟨c, (step.agree still dangles).mp mem, step.named c dangles mem, loses⟩
  · rintro ⟨c, tracked, -, loses⟩
    exact ⟨c, step.carried c (loses_dangles loses) tracked, loses⟩

theorem dropped_leaving {column : String} {d : TableConstraint} (dangles : Dangles actions d)
    (left : dropColumnFromConstraint column d = some c)
    (next : ∀ col ∈ d.columns, col ∈ column :: nextDrops owner rest) : Leaving rest owner c := by
  obtain ⟨check, columns, nonempty⟩ := drop_column_left left
  have key : isCheck d = false := by
    obtain ⟨reference, refers, _⟩ := dangles
    cases d <;> first | rfl | cases refers
  refine ⟨nonempty.resolve_left (by simp [check, key]), fun col mem => ?_⟩
  rw [columns, List.mem_filter, decide_eq_true_eq] at mem
  exact (List.mem_cons.mp (next col mem.1)).resolve_left mem.2

theorem deleted_in_step {column : String} (nodup : TableNamesNodup s)
    (step : KeysInStep actions baseline done (.deleteColumn owner column :: rest) s owner)
    (followed : Followed actions done rest s (.deleteColumn owner column))
    (ok : (applyAction s (.deleteColumn owner column)).toExcept = .ok s') :
    KeysInStep actions baseline (done ++ [.deleteColumn owner column]) rest s' owner := by
  obtain ⟨t, before, left⟩ := @edited_at _ _ (.deleteColumn owner column) owner nodup rfl rfl rfl ok
  rw [editedConstraints, ← before] at left
  have came : ∀ c, Dangles actions c → c ∈ constraintsAt s' owner →
      ∃ d ∈ constraintsAt s owner, Dangles actions d ∧
        dropColumnFromConstraint column d = some c := by
    intro c dangles mem
    rw [left, dropColumnFromConstraints, List.mem_filterMap] at mem
    obtain ⟨d, here, dropped⟩ := mem
    exact ⟨d, here, by rwa [Dangles, ← drop_column_reference dropped], dropped⟩
  refine ⟨fun c dangles tracked => ?_, fun c dangles mem => ?_, fun c dangles mem => ?_⟩
  · have mem := step.carried c dangles
      ((tracked_before tracked).resolve_right (by simp [listed]))
    obtain ⟨filled, whole⟩ := followed c mem dangles
    have absent : column ∉ c.columns := by
      intro here
      refine tracked_gone ?_ (whole here).2 (by simp [listed]) tracked
      exact fun spared => spared.columns column here rfl
    rw [left, dropColumnFromConstraints, List.mem_filterMap]
    exact ⟨c, mem, outlives_iff.mpr (.inr ⟨filled, absent⟩)⟩
  · obtain ⟨d, here, again, dropped⟩ := came c dangles mem
    obtain ⟨filled, whole⟩ := followed d here again
    by_cases inside : column ∈ d.columns
    · exact .inr (dropped_leaving again dropped (whole inside).1)
    · obtain rfl := Option.some.inj (dropped.symm.trans (outlives_iff.mpr (.inr ⟨filled, inside⟩)))
      obtain tracked | leaving := step.tracked c dangles here
      · refine .inl ((tracked_kept (by simp) ⟨?_, by simp [removedKeyBy]⟩ (by simp [listed])).mpr
          tracked)
        rintro col mem same
        injection same with _ own
        exact inside (own ▸ mem)
      · refine .inr ⟨leaving.1, fun col mem => ?_⟩
        have next := leaving.2 col mem
        simp only [nextDrops, ↓reduceIte, List.mem_cons] at next
        exact next.resolve_left fun same => inside (same ▸ mem)
  · obtain ⟨d, here, again, dropped⟩ := came c dangles mem
    rw [NamesColumns, drop_column_reference dropped]
    exact step.named d again here

theorem renamed_alike {old new : String} (nodup : TableNamesNodup s)
    (step : KeysInStep actions baseline done (.renameColumn owner old new :: rest) s owner)
    (followed : Followed actions done rest s (.renameColumn owner old new))
    (ok : (applyAction s (.renameColumn owner old new)).toExcept = .ok s') :
    ReportsAlike actions baseline (done ++ [.renameColumn owner old new]) s' owner := by
  obtain ⟨t, before, left⟩ :=
    @edited_at _ _ (.renameColumn owner old new) owner nodup rfl rfl rfl ok
  rw [editedConstraints, ← before] at left
  have neutral : ∀ c, Tracked baseline (done ++ [.renameColumn owner old new]) owner c ↔
      Tracked baseline done owner c := fun c => tracked_neutral rfl rfl rfl
  have alike := step.reports fun c leaving => nomatch leaving_next leaving
  intro d
  simp only [neutral]
  rw [← alike d, left]
  constructor
  · rintro ⟨_, mem, loses⟩
    obtain ⟨c, here, rfl⟩ := List.mem_map.mp mem
    rcases followed c here with ⟨same, -⟩ | ⟨-, safe⟩
    · exact ⟨c, here, (loses_renamed same).mp loses⟩
    · exact absurd (loses_dangles loses) safe
  · rintro ⟨c, here, loses⟩
    rcases followed c here with ⟨same, -⟩ | ⟨safe, -⟩
    · exact ⟨_, List.mem_map_of_mem here, (loses_renamed same).mpr loses⟩
    · exact absurd (loses_dangles loses) safe

theorem followed_in_step (nodup : TableNamesNodup s)
    (in_step : InStep actions baseline done (a :: rest) s)
    (followed : Followed actions done rest s a) (ok : (applyAction s a).toExcept = .ok s') :
    InStep actions baseline (done ++ [a]) rest s' := by
  intro owner
  rcases in_step owner with step | ⟨alone, alike⟩
  · by_cases deletes : ∃ column, a = .deleteColumn owner column
    · obtain ⟨column, rfl⟩ := deletes
      exact .inl (deleted_in_step nodup step followed ok)
    · have still : ∀ c, ¬ Leaving (a :: rest) owner c := fun c leaving =>
        deletes (leaving_next leaving)
      by_cases last : (∃ old new, a = .renameColumn owner old new) ∧ LeftAlone rest owner
      · obtain ⟨⟨old, new, rfl⟩, alone⟩ := last
        exact .inr ⟨alone, renamed_alike nodup step followed ok⟩
      · have agree : ∀ c, Dangles actions c →
            (c ∈ constraintsAt s' owner ↔ Tracked baseline (done ++ [a]) owner c) := by
          intro c dangles
          exact followed_agrees nodup (fun column same => deletes ⟨column, same⟩)
            (fun old new same alone => last ⟨⟨old, new, same⟩, alone⟩) followed ok dangles
            (step.agree still dangles)
        refine .inl ⟨fun c dangles => (agree c dangles).mpr,
          fun c dangles mem => .inl ((agree c dangles).mp mem), fun c dangles mem => ?_⟩
        rcases tracked_before ((agree c dangles).mp mem) with before | ⟨_, here⟩
        · exact step.named c dangles (step.carried c dangles before)
        · exact listed_named followed dangles here
  · obtain ⟨other, named⟩ := alone a List.mem_cons_self
    refine .inr ⟨fun b mem => alone b (List.mem_cons_of_mem _ mem), fun d => ?_⟩
    simp only [tracked_elsewhere other]
    rw [constraints_elsewhere nodup other named ok]
    exact alike d

theorem followed_run (nodup : TableNamesNodup s)
    (in_step : InStep actions baseline done rest s) (followed : FollowedFrom actions done s rest)
    (ok : applyActions s rest = .ok s') :
    TableNamesNodup s' ∧ InStep actions baseline (done ++ rest) [] s' := by
  induction rest generalizing done s with
  | nil =>
    obtain rfl := Except.ok.inj ok
    rw [List.append_nil]
    exact ⟨nodup, in_step⟩
  | cons a rest ih =>
    obtain ⟨here, later⟩ := followed
    rw [apply_actions_cons] at ok
    cases applied : (applyAction s a).toExcept with
    | error e => rw [applied] at ok; cases ok
    | ok next =>
      obtain ⟨_, rfl⟩ := to_except_ok.mp applied
      rw [applied] at ok
      have step := followed_in_step nodup in_step here applied
      rw [List.append_cons]
      exact ih (apply_action_nodup nodup applied) step later ok

end Following

/-- Every foreign key of the schema names columns of a table that is there. -/
def KeysResolve (schema : Schema) : Prop :=
  ∀ t ∈ schema, ∀ c ∈ t.constraints, ∀ reference ∈ referenceOf c,
    Provides schema reference ∧ reference.2 ≠ []

instance (schema : Schema) : Decidable (KeysResolve schema) :=
  inferInstanceAs (Decidable (∀ t ∈ schema, _))

/-- Where the check accounts for every step of the plan, it reports exactly the keys that
    the replayed schema still carries and whose target the plan has dropped. -/
theorem dangling_drops_agree_when {plan : MigrationPlan} {baseline schema : Schema}
    (nodup : TableNamesNodup baseline) (resolve : KeysResolve baseline)
    (applied : applyActions baseline plan.actions = .ok schema)
    (followed : FollowedFrom plan.actions [] baseline plan.actions) (d : DanglingFkDrop) :
    d ∈ findDanglingFkDrops plan baseline ↔ LeftDangling plan.actions schema d := by
  have start : InStep plan.actions baseline [] plan.actions baseline := by
    refine fun owner => .inl ⟨fun c _ tracked => ?_, fun c _ mem => ?_, fun c _ mem => ?_⟩
    · obtain ⟨mem, _⟩ | ⟨a, nothing, _⟩ := tracked.source
      · exact mem
      · cases nothing
    · exact .inl ⟨by simp, .inl ⟨mem, by simp⟩⟩
    · intro reference refers
      obtain ⟨t, here, _, own⟩ := (mem_constraints_at nodup).mp mem
      exact (resolve t here c own reference refers).2
  obtain ⟨schema_nodup, finished⟩ := followed_run nodup start followed applied
  rw [List.nil_append] at finished
  have alike : ∀ owner, ReportsAlike plan.actions baseline plan.actions schema owner := by
    intro owner
    rcases finished owner with step | ⟨-, alike⟩
    · refine step.reports fun c leaving => ?_
      obtain ⟨col, mem⟩ := List.exists_mem_of_ne_nil _ leaving.1
      cases leaving.2 col mem
    · exact alike
  rw [mem_dangling_drops nodup]
  constructor
  · rintro ⟨owner, c, tracked, named, loses⟩
    obtain ⟨c, carried, loses⟩ := (alike owner d).mpr ⟨c, tracked, named, loses⟩
    obtain ⟨t, here, rfl, mem⟩ := (mem_constraints_at schema_nodup).mp carried
    exact ⟨t, here, c, mem, loses⟩
  · rintro ⟨t, here, c, mem, loses⟩
    exact ⟨t.name, (alike t.name d).mp
      ⟨c, (mem_constraints_at schema_nodup).mpr ⟨t, here, rfl, mem⟩, loses⟩⟩

/-! Customers go, orders stay -/

def customer : TableDef :=
  ⟨"customer", none, [.new "id" (.simple .integer) false], [.primaryKey false ["id"] .default]⟩

def placedBy : TableConstraint :=
  .foreignKey (some "placed_by") ["customer"] "customer" ["id"] none none .default

def orderColumns (foreignKey : Option ForeignKeySyntax) : List ColumnDef :=
  [.new "id" (.simple .integer) false,
    { ColumnDef.new "customer" (.simple .integer) true with foreignKey }]

def orderKey : Option ForeignKeySyntax := some (.string "customer.id")

def inlineKeyPlan : MigrationPlan :=
  ⟨"", none, none, 1, [.createTable "order" (orderColumns orderKey) [], .deleteTable "customer"]⟩

/-- Only the listed constraints of a created table are among the check's keys. -/
theorem inline_key_unreported : TableNamesNodup [customer] ∧ KeysResolve [customer] ∧
    applyActions [customer] inlineKeyPlan.actions = .ok
      [⟨"order", none, orderColumns orderKey,
        [.foreignKey none ["customer"] "customer" ["id"] none none .default]⟩] ∧
    ¬ ∀ d, d ∈ findDanglingFkDrops inlineKeyPlan [customer] ↔
      LeftDangling inlineKeyPlan.actions
        [⟨"order", none, orderColumns orderKey,
          [.foreignKey none ["customer"] "customer" ["id"] none none .default]⟩] d := by
  refine ⟨by decide, by decide, by decide, ?_⟩
  intro agrees
  have dropped : LostTarget inlineKeyPlan.actions "customer" ["id"] none :=
    .table (by simp [inlineKeyPlan])
  have left := (agrees ⟨"customer", none, "order", none⟩).mpr
    ⟨_, List.mem_singleton.mpr rfl, _, List.mem_singleton.mpr rfl, .key _ _ _ _ _ dropped⟩
  have nothing : findDanglingFkDrops inlineKeyPlan [customer] = [] := by
    simp [findDanglingFkDrops, collectSurvivingFks, inlineKeyPlan, customer, introducedFks,
      baselineFks, survivingFk, collectDropSet, droppedBy]
  rw [nothing] at left
  cases left

def listedKeyPlan : MigrationPlan :=
  ⟨"", none, none, 1, [.createTable "order" (orderColumns none) [placedBy],
    .deleteTable "customer"]⟩

theorem listed_key_reported :
    ⟨"customer", none, "order", some "placed_by"⟩ ∈ findDanglingFkDrops listedKeyPlan [customer] :=
  (dangling_drops_agree_when (by decide) (by decide)
      (show applyActions [customer] listedKeyPlan.actions = .ok
        [⟨"order", none, orderColumns none, [placedBy]⟩] by decide) (by decide) _).mpr
    ⟨_, List.mem_singleton.mpr rfl, placedBy, List.mem_singleton.mpr rfl,
      .key _ _ _ _ _ (.table (by simp [listedKeyPlan]))⟩

end Vespertide
