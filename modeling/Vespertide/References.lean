import Vespertide.PlanSteps
import Vespertide.TableConvergence
import Vespertide.TableSteps

/-!
Foreign keys while a plan is applied. A foreign key that a step brings in finds
its table and its columns, as long as the columns it needs of a table that stays
are there already: the block of a table comes before those of later names, and
the creations before all of them.
-/
namespace Vespertide
open Components

def Provides (schema : List TableDef) (reference : String × List String) : Prop :=
  ∃ t ∈ tableGet schema reference.1, ∀ col ∈ reference.2, col ∈ t.columnNames

/-- Every foreign key, an inline declaration among them, names a table and columns. -/
def Resolvable (schema : List TableDef) : Prop :=
  ∀ t ∈ schema, ∀ c ∈ promoted t, ∀ reference ∈ referenceOf c, Provides schema reference

instance (schema : List TableDef) (reference : String × List String) :
    Decidable (Provides schema reference) :=
  @Option.decidableExistsMem TableDef (fun t => ∀ col ∈ reference.2, col ∈ t.columnNames)
    (fun _ => List.decidableBAll _ _) (tableGet schema reference.1)

instance (schema : List TableDef) : Decidable (Resolvable schema) :=
  inferInstanceAs (Decidable (∀ t ∈ schema, ∀ c ∈ promoted t, ∀ reference ∈ referenceOf c,
    Provides schema reference))

def introduced (schema : List TableDef) : MigrationAction → List TableConstraint
  | .createTable table columns constraints => promoted ⟨table, none, columns, constraints⟩
  | .addConstraint _ constraint => [constraint]
  | .replaceConstraint _ _ new => [new]
  | .addColumn table column _ =>
      match tableGet schema table with
      | some t => (addColumnTo table column t).state.constraints.filter (· ∉ t.constraints)
      | none => []
  | _ => []

def available (schema : List TableDef) : MigrationAction → List TableDef
  | .createTable table columns constraints => schema ++ [⟨table, none, columns, constraints⟩]
  | _ => schema

/-- In every state of the run, the foreign keys of the next step find what they reference. -/
def ReferencesFirst (baseline : List TableDef) (actions : List MigrationAction) : Prop :=
  ∀ before a after, actions = before ++ a :: after →
    ∀ schema, applyActions baseline before = .ok schema →
      ∀ c ∈ introduced schema a, ∀ reference ∈ referenceOf c,
        Provides (available schema a) reference

/-- The condition: a foreign key needs no column that its table only gets later on. -/
structure ReferencesReady (fromSchema toSchema : List TableDef) : Prop where
  created : ∀ u ∈ toSchema, tableGet toSchema u.name = some u → tableGet fromSchema u.name = none →
    ∀ c ∈ promoted u, ∀ reference ∈ referenceOf c, ∀ r ∈ tableGet fromSchema reference.1,
      ∀ col ∈ reference.2, col ∈ r.columnNames
  gained : ∀ t ∈ fromSchema, ∀ u ∈ tableGet toSchema t.name,
    ∀ c ∈ promoted u, c ∉ promoted t → ∀ reference ∈ referenceOf c, t.name < reference.1 →
      ∀ r ∈ tableGet fromSchema reference.1, ∀ col ∈ reference.2, col ∈ r.columnNames
  promoted_again : ∀ t ∈ fromSchema, ∀ u ∈ tableGet toSchema t.name,
    ∀ c ∈ carriedConstraints t u, c ∉ shrunkConstraints t u → ∀ reference ∈ referenceOf c,
      ∃ r ∈ tableGet fromSchema reference.1, ∃ w ∈ tableGet toSchema reference.1,
        ∀ col ∈ reference.2, col ∈ r.columnNames ∧ (reference.1 ≤ t.name → col ∈ w.columnNames)

theorem table_of_reference {c : TableConstraint} {reference : String × List String}
    (refers : referenceOf c = some reference) : refTableOf c = some reference.1 := by
  cases c with
  | foreignKey name columns refTable refColumns onDelete onUpdate strategy =>
    obtain rfl := Option.some.inj refers
    rfl
  | _ => cases refers

theorem table_get_append (schema : List TableDef) (t : TableDef) (name : String) :
    tableGet (schema ++ [t]) name = if t.name = name then some t else tableGet schema name := by
  simp only [tableGet, KeyedView.get, List.reverse_append, List.reverse_cons, List.reverse_nil,
    List.nil_append, List.cons_append, List.find?_cons]
  split <;> simp_all

theorem resolvable_get {schema : List TableDef} (resolvable : Resolvable schema) {name : String}
    {t : TableDef} (found : tableGet schema name = some t) {c : TableConstraint}
    (mem : c ∈ promoted t) {reference : String × List String}
    (refers : referenceOf c = some reference) : Provides schema reference :=
  resolvable t (KeyedView.get_some found).1 c mem reference refers

section Planned
variable {fromSchema toSchema created : List TableDef} {edits : String → List MigrationAction}
  {actions : List MigrationAction} (planned : Planned fromSchema toSchema created edits actions)
  (nodup : TableNamesNodup fromSchema) {before after : List MigrationAction} {a : MigrationAction}
  (split : actions = before ++ a :: after) {schema : List TableDef}
  (applied : applyActions fromSchema before = .ok schema)
include planned split nodup applied

theorem Planned.created_provides {u : TableDef} (mem : u ∈ created) (done : createOf u ∈ before)
    {reference : String × List String} (same : u.name = reference.1)
    (columns : ∀ col ∈ reference.2, col ∈ u.columnNames) : Provides schema reference :=
  ⟨{ normalized u with description := none },
    same ▸ planned.created_by_then split nodup applied mem done, columns⟩

theorem Planned.creation_references {done todo : List TableDef} {u : TableDef}
    (listed : created = done ++ u :: todo) (shape : before = creations done)
    {c : TableConstraint} (mem : c ∈ promoted u) {reference : String × List String}
    (refers : referenceOf c = some reference) (resolves : Provides toSchema reference)
    (ready : ∀ r ∈ tableGet fromSchema reference.1, ∀ col ∈ reference.2, col ∈ r.columnNames) :
    Provides (schema ++ [⟨u.name, none, u.columns, u.constraints⟩]) reference := by
  obtain ⟨there, absent⟩ := (planned.mem_created u).mp (listed ▸ by simp)
  obtain ⟨w, target, columns⟩ := resolves
  by_cases own : u.name = reference.1
  · rw [← own, Option.mem_def, there] at target
    obtain rfl := Option.some.inj target
    exact ⟨⟨u.name, none, u.columns, u.constraints⟩, by simp [table_get_append, own], columns⟩
  · suffices Provides schema reference by
      obtain ⟨r, found, has⟩ := this
      exact ⟨r, by rw [table_get_append, if_neg own]; exact found, has⟩
    rcases Option.eq_none_or_eq_some (tableGet fromSchema reference.1) with none_here | ⟨r, here⟩
    · have named := (KeyedView.get_some target).2
      have w_created : w ∈ created := (planned.mem_created w).mpr (named ▸ ⟨target, none_here⟩)
      have order := planned.created_order
      rw [listed] at order w_created
      have not_later : w ∉ todo := by
        intro later
        have free := (List.pairwise_cons.mp (List.pairwise_append.mp order).2.1).1 w later c mem
        exact free (named ▸ table_of_reference refers)
      have w_done : w ∈ done := by
        rcases List.mem_append.mp w_created with done | rest
        · exact done
        · rcases List.mem_cons.mp rest with rfl | later
          · exact absurd named own
          · exact absurd later not_later
      exact planned.created_provides nodup split applied (listed ▸ w_created)
        (shape ▸ List.mem_map_of_mem w_done) named columns
    · refine ⟨r, ?_, ready r here⟩
      rw [planned.untouched split nodup applied, here]
      · rfl
      intro b mem same
      rw [shape] at mem
      obtain ⟨x, x_done, rfl⟩ := List.mem_map.mp mem
      have x_absent := ((planned.mem_created x).mp (listed ▸ List.mem_append_left _ x_done)).2
      have x_named : x.name = reference.1 := same
      rw [x_named, here] at x_absent
      cases x_absent

section Early
variable {done todo : List String} {name : String} {front rest : List MigrationAction}
  (listed : tableKeys toSchema = done ++ name :: todo)
  (block : earlyBlock fromSchema toSchema (created.map (·.name)) edits name = front ++ a :: rest)
  (shape : before = creations created ++ drops fromSchema toSchema ++
    (done.flatMap (earlyBlock fromSchema toSchema (created.map (·.name)) edits) ++ front))
include listed block shape

theorem Planned.stayed_provides {reference : String × List String} {t r w : TableDef}
    (here : tableGet fromSchema name = some t)
    (stays : tableGet fromSchema reference.1 = some r)
    (target : tableGet toSchema reference.1 = some w)
    (earlier : reference.1 < name → ∀ col ∈ reference.2, col ∈ w.columnNames)
    (own : reference.1 = name → ∀ t', run editStep front t = some t' →
      ∀ col ∈ reference.2, col ∈ t'.columnNames)
    (later : name < reference.1 → ∀ col ∈ reference.2, col ∈ r.columnNames) :
    Provides schema reference := by
  rcases lt_trichotomy reference.1 name with before_it | itself | after_it
  · obtain ⟨x, found, _, left⟩ :=
      planned.earlier_table listed block shape split nodup applied before_it stays target
    have regular := (table_get_regular planned.to_regular target).1
    refine ⟨x, found, fun col mem => ?_⟩
    exact (left_names left (u := normalized w) regular.nodup col).mpr (earlier before_it col mem)
  · obtain ⟨x, found, ran⟩ := planned.own_table listed block shape split nodup applied here
    exact ⟨x, itself ▸ found, own itself x ran⟩
  · exact ⟨r, planned.later_table listed block shape split nodup applied after_it stays target,
      later after_it⟩

theorem Planned.gained_references {t u : TableDef} (here : tableGet fromSchema name = some t)
    (there : tableGet toSchema name = some u) (constrains : isConstraintAction a = true)
    {reference : String × List String} (resolves : Provides toSchema reference)
    (ready : name < reference.1 → ∀ r ∈ tableGet fromSchema reference.1,
      ∀ col ∈ reference.2, col ∈ r.columnNames) : Provides schema reference := by
  obtain ⟨w, target, columns⟩ := resolves
  rcases Option.eq_none_or_eq_some (tableGet fromSchema reference.1) with none_here | ⟨r, stays⟩
  · have named := (KeyedView.get_some target).2
    have w_created : w ∈ created := (planned.mem_created w).mpr (named ▸ ⟨target, none_here⟩)
    refine planned.created_provides nodup split applied w_created ?_ named columns
    rw [shape]
    simp only [List.mem_append, List.mem_map]
    exact .inl (.inl ⟨w, w_created, rfl⟩)
  · refine planned.stayed_provides nodup split applied listed block shape here stays target
      (fun _ => columns) ?_ ?_
    · intro itself t' ran col needed
      obtain ⟨regular, _⟩ := table_get_regular planned.from_regular here
      have target_regular := (table_get_regular planned.to_regular there).1
      rw [itself, Option.mem_def, there] at target
      obtain rfl := Option.some.inj target
      rw [earlyBlock, here, there] at block
      exact (constraint_meets_columns (u := normalized u) (planned.edits_perm name t u here there)
        block regular ran constrains target_regular.nodup col).mpr (columns col needed)
    · intro after_it
      exact ready after_it r stays

theorem Planned.promoted_references (ready : ReferencesReady fromSchema toSchema)
    {t u : TableDef} (here : tableGet fromSchema name = some t)
    (there : tableGet toSchema name = some u) {column : ColumnDef}
    (adds : a = .addColumn name column none) {c : TableConstraint} (mem : c ∈ introduced schema a)
    {reference : String × List String} (refers : referenceOf c = some reference) :
    Provides schema reference := by
  obtain ⟨regular, _⟩ := table_get_regular planned.from_regular here
  have perm := planned.edits_perm name t u here there
  have own_block := block
  rw [earlyBlock, here, there] at own_block
  obtain ⟨x, found, x_ran⟩ := planned.own_table listed block shape split nodup applied here
  have again : c ∈ carriedConstraints t u ∧ c ∉ shrunkConstraints t u := by
    simp only [adds, introduced, found, List.mem_filter, decide_eq_true_eq] at mem
    exact (addition_meets (u := normalized u) perm own_block regular x_ran adds).2 c mem.1 mem.2
  obtain ⟨t_mem, rfl⟩ := KeyedView.get_some here
  obtain ⟨r, stays, w, target, columns⟩ :=
    ready.promoted_again t t_mem u there c again.1 again.2 reference refers
  refine planned.stayed_provides nodup split applied listed block shape here stays target ?_ ?_ ?_
  · intro before_it col needed
    exact (columns col needed).2 before_it.le
  · intro itself t' ran col needed
    obtain ⟨old, new⟩ := columns col needed
    rw [itself, Option.mem_def, here] at stays
    rw [itself, Option.mem_def, there] at target
    obtain rfl := Option.some.inj stays
    obtain rfl := Option.some.inj target
    obtain ⟨d, d_mem, rfl⟩ := List.mem_map.mp old
    have kept : d ∈ keptColumns t (normalized u) := mem_kept.mpr ⟨d_mem, new itself.le⟩
    exact (addition_meets (u := normalized u) perm own_block regular ran adds).1 d kept
  · intro _ col needed
    exact (columns col needed).1

theorem Planned.early_references (resolvable : Resolvable toSchema)
    (ready : ReferencesReady fromSchema toSchema)
    {c : TableConstraint} (mem : c ∈ introduced schema a) {reference : String × List String}
    (refers : referenceOf c = some reference) : Provides (available schema a) reference := by
  have own_block := block
  unfold earlyBlock at own_block
  split at own_block
  · rename_i t u here there
    have in_block : a ∈ tableActions name t (normalized u) (edits name)
        ((additions name t (normalized u)).filter (! needsCreated (created.map (·.name)) ·)) :=
      own_block ▸ by simp
    have gained : isConstraintAction a = true → ∀ {c : TableConstraint}, c ∈ promoted u →
        c ∉ promoted t → ∀ {reference : String × List String}, referenceOf c = some reference →
        Provides schema reference := by
      intro constrains c wanted fresh reference refers
      apply planned.gained_references nodup split applied listed block shape here there constrains
        (resolvable_get resolvable there wanted refers)
      obtain ⟨t_mem, rfl⟩ := KeyedView.get_some here
      exact ready.gained t t_mem u there c wanted fresh reference refers
    rcases table_action_cases (u := normalized u) (planned.edits_perm name t u here there) in_block
      with ⟨column, _, rfl⟩ | edit | ⟨column, _, rfl⟩ | ⟨old, new, rfl, replaces⟩ | ⟨d, _, rfl⟩ |
        ⟨d, added, rfl⟩
    · cases mem
    · obtain ⟨_, column, f, about⟩ := attribute_edit_cases edit
      cases a <;> first | (cases about; done) | cases mem
    · exact planned.promoted_references nodup split applied listed block shape ready here there rfl
        mem refers
    · obtain rfl := List.mem_singleton.mp mem
      obtain ⟨_, _, same, _, _, wanted, fresh, _⟩ :=
        (replaced_constraints_paired name).replaces _ replaces
      obtain ⟨_, rfl⟩ : old = _ ∧ c = _ := by simpa using same
      exact gained rfl wanted fresh refers
    · cases mem
    · obtain rfl := List.mem_singleton.mp mem
      obtain ⟨wanted, fresh⟩ := added_gained name (List.mem_of_mem_filter added)
      exact gained rfl wanted fresh refers
  · simp at own_block

end Early

theorem Planned.late_references (resolvable : Resolvable toSchema) {name : String} {front rest : List MigrationAction}
    (block : lateBlock fromSchema toSchema (created.map (·.name)) name = front ++ a :: rest)
    (created_first : ∀ u ∈ created, createOf u ∈ before) {c : TableConstraint}
    (mem : c ∈ introduced schema a) {reference : String × List String}
    (refers : referenceOf c = some reference) : Provides (available schema a) reference := by
  have in_block : a ∈ lateBlock fromSchema toSchema (created.map (·.name)) name := block ▸ by simp
  unfold lateBlock at in_block
  split at in_block
  · rename_i t u here there
    obtain ⟨d, late, rfl⟩ := List.mem_map.mp in_block
    obtain rfl := List.mem_singleton.mp mem
    obtain ⟨added, needs⟩ := List.mem_filter.mp late
    have wanted := (added_gained name added).1
    obtain ⟨w, target, columns⟩ := resolvable_get resolvable there wanted refers
    have named := (KeyedView.get_some target).2
    simp only [needsCreated, table_of_reference refers, decide_eq_true_eq] at needs
    obtain ⟨v, v_created, v_named⟩ := List.mem_map.mp needs
    have v_target := ((planned.mem_created v).mp v_created).1
    rw [v_named, Option.mem_def.mp target] at v_target
    obtain rfl := Option.some.inj v_target
    exact planned.created_provides nodup split applied v_created (created_first w v_created) named
      columns
  · cases in_block

end Planned

section Plans
variable {fromSchema toSchema : List TableDef}

theorem Planned.references_first {created : List TableDef} {edits : String → List MigrationAction}
    {actions : List MigrationAction} (planned : Planned fromSchema toSchema created edits actions)
    (nodup : TableNamesNodup fromSchema) (resolvable : Resolvable toSchema)
    (ready : ReferencesReady fromSchema toSchema) : ReferencesFirst fromSchema actions := by
  intro before a after split schema applied c mem reference refers
  have step := planned.step split
  generalize shape : before = shaped at step
  cases step with
  | creation listed =>
    obtain ⟨there, absent⟩ := (planned.mem_created _).mp (listed ▸ List.mem_append_cons_self)
    exact planned.creation_references nodup split applied listed shape mem refers
      (resolvable_get resolvable there mem refers)
      (ready.created _ (KeyedView.get_some there).1 there absent c mem reference refers)
  | drop _ => cases mem
  | early listed block =>
    rw [List.append_assoc] at shape
    exact planned.early_references nodup split applied listed block shape resolvable ready mem refers
  | late _ block =>
    refine planned.late_references nodup split applied resolvable block ?_ mem refers
    intro u u_created
    rw [shape]
    simp only [List.mem_append, List.mem_map]
    exact .inl (.inl (.inl ⟨u, u_created, rfl⟩))

/-- Over the run of a computed plan no foreign key comes before what it references,
    as long as none needs a column that a table that stays gets later on. -/
theorem plan_references_first {baseline target : List TableDef} {plan : MigrationPlan}
    (nodup : TableNamesNodup baseline) (resolvable : Resolvable target)
    (ready : ReferencesReady baseline target) (diffed : diffSchemas baseline target = .ok plan) :
    ReferencesFirst baseline plan.actions := by
  obtain ⟨created, edits, planned⟩ := diff_schemas_planned diffed
  exact planned.references_first nodup resolvable ready

end Plans

def parentTable (columns : List String) : TableDef :=
  ⟨"parent", none, columns.map (.new · (.simple .integer) false), []⟩

def toParent (column : String) : TableConstraint :=
  .foreignKey none [column] "parent" [column] none none .default

def childTable (column : String) : TableDef :=
  ⟨"child", none, [.new column (.simple .integer) false], [toParent column]⟩

set_option maxRecDepth 100000 in
theorem child_plan : diffSchemas [parentTable ["id"]] [parentTable ["id", "code"], childTable "code"] =
    .ok ⟨"", none, none, 0, [createOf (childTable "code"),
      .addColumn "parent" (.new "code" (.simple .integer) false) none]⟩ := by
  decide

set_option maxRecDepth 100000 in
theorem child_references_first :
    ReferencesFirst [parentTable ["id"]] [createOf (childTable "id")] :=
  have diffed : diffSchemas [parentTable ["id"]] [parentTable ["id"], childTable "id"] =
      .ok ⟨"", none, none, 0, [createOf (childTable "id")]⟩ := by
    decide
  plan_references_first (by decide) (by decide) (by constructor <;> decide) diffed

/-- The new table is created before the column that its foreign key references. -/
theorem created_before_column :
    ¬ ∀ baseline target plan, TableNamesNodup baseline → Resolvable baseline →
      Resolvable target → diffSchemas baseline target = .ok plan →
      ReferencesFirst baseline plan.actions := by
  intro first
  have provided := first _ _ _ (by decide) (by decide) (by decide) child_plan [] _ _ rfl _ rfl
    (toParent "code") (by decide) ("parent", ["code"]) rfl
  revert provided
  decide

end Vespertide
