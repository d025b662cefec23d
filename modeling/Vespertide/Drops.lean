import Vespertide.References

/-!
Drops while a plan is applied. What a step drops is referenced by no other table,
as long as the baseline does not reference it from a table whose own actions come
later, and no earlier block leaves such a reference behind.
-/
namespace Vespertide
open Components AppendMissing

/-! The foreign keys of a table after its block -/

theorem clear_all_foreign_key {table : String} {gone : List TableConstraint} {d : ColumnDef}
    {fkSyntax : ForeignKeySyntax} (declared : (clearAll table gone d).foreignKey = some fkSyntax) :
    d.foreignKey = some fkSyntax ∧
      ∀ e ∈ gone, ∀ reference, referenceOf e = some reference → d.name ∉ e.columns := by
  induction gone generalizing d with
  | nil => exact ⟨declared, by simp⟩
  | cons e gone ih =>
    obtain ⟨first, rest⟩ := ih declared
    rw [clear_column_name] at rest
    have cleared : (clearColumn table e d).foreignKey = some fkSyntax := first
    rw [clear_column_eq] at cleared
    cases e with
    | foreignKey name columns refTable refColumns onDelete onUpdate strategy =>
      simp only at cleared
      split at cleared
      · cases cleared
      · rename_i apart
        refine ⟨cleared, List.forall_mem_cons.mpr ⟨?_, rest⟩⟩
        intro reference _
        exact apart
    | _ =>
      refine ⟨cleared, List.forall_mem_cons.mpr ⟨?_, rest⟩⟩
      intro reference refers
      cases refers

theorem candidate_of_declaration {table : String} {gone : List TableConstraint} {d : ColumnDef}
    {c : TableConstraint} (candidate : foreignKeyCandidate (clearAll table gone d) = some c) :
    foreignKeyCandidate d = some c ∧
      ∀ e ∈ gone, ∀ reference, referenceOf e = some reference → d.name ∉ e.columns := by
  cases declared : (clearAll table gone d).foreignKey with
  | none => simp [foreignKeyCandidate, declared] at candidate
  | some fkSyntax =>
    obtain ⟨first, apart⟩ := clear_all_foreign_key declared
    refine ⟨?_, apart⟩
    simpa [foreignKeyCandidate, declared, first] using candidate

section Left
variable {t u r : TableDef} {added : List TableConstraint} (left : TableLeft t.name t u added r)
  (regular : Regular t) (replaceable : Replaceable t u)
  (added_wanted : ∀ c ∈ added, c ∈ u.constraints) (added_fresh : ∀ c ∈ added, c ∉ promoted t)
include left regular replaceable added_wanted added_fresh

/-- The foreign keys of a table after its block are those of the target and the leftovers. -/
theorem left_foreign_keys {c : TableConstraint} (mem : c ∈ promoted r)
    {reference : String × List String} (refers : referenceOf c = some reference) :
    c ∈ u.constraints ∨ Leftover t u c := by
  by_contra neither
  obtain ⟨unwanted, no_leftover⟩ := not_or.mp neither
  rw [promoted, append_missing_eq, List.mem_append] at mem
  rcases mem with explicit | again
  · exact no_leftover ((left_unwanted left added_wanted unwanted).mp explicit)
  · have uncovered := missing_uncovered again
    have candidate := missing_subset again
    rw [left_candidates left replaceable] at candidate
    obtain ⟨d', staying, declares'⟩ := foreign_key_candidate candidate refers
    obtain ⟨d, kept, rfl⟩ := List.mem_map.mp staying
    obtain ⟨declares, apart⟩ := candidate_of_declaration declares'
    obtain ⟨d_mem, d_stays⟩ := mem_kept.mp kept
    have known : c ∈ candidates t.columns := by
      simp only [candidates, List.mem_append, List.mem_filterMap]
      exact .inl (.inr ⟨d, d_mem, declares⟩)
    have covered : Covered covers (promoted t) c :=
      append_missing_covers candidate_covers_itself c known
    obtain ⟨e, old, e_covers⟩ := covered
    obtain ⟨⟨e_reference, e_refers⟩, columns⟩ := (candidate_covered declares e).mp e_covers
    have d_column : d.name ∈ e.columns := by simp [columns]
    have outlives : ∀ col ∈ droppedColumns t u, Outlives col e := by
      intro col dropped
      refine outlives_iff.mpr (.inr ⟨by simp [columns], fun here => ?_⟩)
      rw [columns, List.mem_singleton] at here
      exact (mem_dropped.mp dropped).2 (here ▸ d_stays)
    by_cases wanted : e ∈ u.constraints
    · rw [promoted, append_missing_eq, List.mem_append] at old
      rcases old with explicit | declared
      · have carried : e ∈ carriedConstraints t u := by
          have kept_count := (count_drop_columns t.constraints outlives).trans
            (shrunk_count_le_carried t u e)
          have present := List.count_pos_iff.mpr explicit
          exact List.count_pos_iff.mp (by omega)
        have old : e ∈ promoted t := mem_append_missing_left explicit
        exact uncovered ⟨e, (left_shared left added_fresh wanted old).mpr carried, e_covers⟩
      · obtain ⟨d'', d''_mem, declares''⟩ :=
          foreign_key_candidate (missing_subset declared) e_refers
        have itself := ((candidate_covered declares'' e).mp
          (candidate_covers_itself e (missing_subset declared))).2
        have same : d.name = d''.name := by simpa [columns] using itself
        exact unwanted (candidate_unique regular.nodup d_mem d''_mem same declares declares'' ▸ wanted)
    · have stays : columnsGone (droppedColumns t u) e = false := by
        simp only [columnsGone, decide_eq_false_iff_not, not_and, not_forall]
        intro _
        exact ⟨d.name, d_column, fun dropped => (mem_dropped.mp dropped).2 d_stays⟩
      have gone : e ∈ goneConstraints t u := List.mem_filter.mpr ⟨old, by simp [wanted, stays]⟩
      exact apart e gone e_reference e_refers d_column

end Left

/-! What a step drops -/

def takesAway : MigrationAction → String × List String → Bool
  | .deleteTable table, reference => reference.1 = table
  | .deleteColumn table column, reference => reference.1 = table ∧ column ∈ reference.2
  | _, _ => false

/-- In every state of the run, no foreign key of another table references what the
    next step drops. -/
def DropsUnreferenced (baseline : List TableDef) (actions : List MigrationAction) : Prop :=
  ∀ before a after, actions = before ++ a :: after →
    ∀ schema, applyActions baseline before = .ok schema →
      ∀ t ∈ schema, t.name ≠ actionTable a → ∀ c ∈ promoted t, ∀ reference ∈ referenceOf c,
        takesAway a reference = false

def DropDependency (fromSchema toSchema : List TableDef) (a b : String) : Prop :=
  b ∈ droppedNames fromSchema toSchema ∧ a ∈ droppedNames fromSchema toSchema ∧ a ≠ b ∧
    ReferencesTable (fromSchema.map normalized) b a

def DropsAcyclic (fromSchema toSchema : List TableDef) : Prop :=
  ∀ name, ¬ Relation.TransGen (DropDependency fromSchema toSchema) name name

def KeepsColumns (fromSchema toSchema : List TableDef) (reference : String × List String) : Prop :=
  ∀ r ∈ tableGet fromSchema reference.1, ∀ w ∈ tableGet toSchema reference.1,
    ∀ col ∈ reference.2, col ∉ droppedColumns r w

instance (fromSchema toSchema : List TableDef) (reference : String × List String) :
    Decidable (KeepsColumns fromSchema toSchema reference) :=
  inferInstanceAs (Decidable (∀ r ∈ tableGet fromSchema reference.1,
    ∀ w ∈ tableGet toSchema reference.1, ∀ col ∈ reference.2, col ∉ droppedColumns r w))

/-- The condition: what goes is not referenced by a table that stays and whose own
    actions come later, nor by a leftover of one whose actions come earlier. -/
structure DropsReady (fromSchema toSchema : List TableDef) : Prop where
  tables : ∀ t ∈ fromSchema, (tableGet toSchema t.name).isSome → ∀ c ∈ promoted t,
    ∀ reference ∈ referenceOf c, reference.1 ∉ droppedNames fromSchema toSchema
  later : ∀ t ∈ fromSchema, (tableGet toSchema t.name).isSome → ∀ c ∈ promoted t,
    ∀ reference ∈ referenceOf c, reference.1 < t.name → KeepsColumns fromSchema toSchema reference
  earlier : ∀ t ∈ fromSchema, ∀ u ∈ tableGet toSchema t.name,
    ∀ c ∈ carriedConstraints t u, Leftover t (normalized u) c →
      ∀ reference ∈ referenceOf c, t.name < reference.1 →
        KeepsColumns fromSchema toSchema reference

theorem drops_acyclic {fromSchema toSchema : List TableDef}
    (acyclic : DropsAcyclic fromSchema toSchema) : ReadyOrder.Acyclic
      (deletionDependencies (droppedNames fromSchema toSchema) (fromSchema.map normalized)) := by
  intro name cycle
  refine acyclic name (Relation.TransGen.mono ?_ name name cycle)
  rintro a b ⟨d, mem, rfl, needed⟩
  have listed : d.1 ∈ droppedNames fromSchema toSchema := by
    have here := List.mem_map_of_mem (f := Prod.fst) mem
    rw [deletion_names, KeyedView.mem_keys] at here
    obtain ⟨name, known, same⟩ := here
    exact same ▸ known
  rw [← ReadyOrder.dependencies_of_mem deletion_proper.names_nodup mem] at needed
  obtain ⟨dropped, other, references⟩ := (mem_deletion_dependencies listed).mp needed
  exact ⟨listed, dropped, other, references⟩

section Planned
variable {fromSchema toSchema created : List TableDef} {edits : String → List MigrationAction}
  {actions : List MigrationAction} (planned : Planned fromSchema toSchema created edits actions)
  (nodup : TableNamesNodup fromSchema) {before after : List MigrationAction} {a : MigrationAction}
  (split : actions = before ++ a :: after) {schema : List TableDef}
  (applied : applyActions fromSchema before = .ok schema) {t : TableDef}
  (found : tableGet schema t.name = some t) {c : TableConstraint} (mem : c ∈ promoted t)
  {reference : String × List String} (refers : referenceOf c = some reference)
include planned

theorem Planned.created_resolvable (resolvable : Resolvable toSchema) : ∀ u ∈ created,
    ∀ c ∈ promoted u, ∀ reference ∈ referenceOf c, Provides toSchema reference :=
  fun u listed _ mem _ refers =>
    resolvable_get resolvable ((planned.mem_created u).mp listed).1 mem refers

include nodup split applied found mem refers

theorem Planned.created_refers (resolvable : ∀ u ∈ created, ∀ c ∈ promoted u,
      ∀ reference ∈ referenceOf c, Provides toSchema reference)
    {u : TableDef} (listed : u ∈ created) (named : u.name = t.name)
    (done : createOf u ∈ before) : Provides toSchema reference := by
  have shape := planned.created_by_then split nodup applied listed done
  rw [named, found] at shape
  have same : promoted t = promoted u := by
    rw [Option.some.inj shape]
    exact promoted_twice rfl rfl
  exact resolvable u listed c (same ▸ mem) reference refers

theorem Planned.table_drop_unreferenced (resolvable : ∀ u ∈ created, ∀ c ∈ promoted u,
      ∀ reference ∈ referenceOf c, Provides toSchema reference)
    (stays : ∀ t ∈ fromSchema, (tableGet toSchema t.name).isSome → ∀ c ∈ promoted t,
      ∀ reference ∈ referenceOf c, reference.1 ∉ droppedNames fromSchema toSchema)
    (acyclic : DropsAcyclic fromSchema toSchema) {done todo : List String} {name : String}
    (listed : dropOrder (droppedNames fromSchema toSchema) (fromSchema.map normalized) =
      done ++ name :: todo)
    (shape : before = creations created ++ done.map .deleteTable) (other : t.name ≠ name) :
    reference.1 ≠ name := by
  rintro rfl
  have perm := drop_order_perm (droppedNames fromSchema toSchema) (fromSchema.map normalized)
  have dropped : reference.1 ∈ droppedNames fromSchema toSchema := perm.mem_iff.mp (listed ▸ by simp)
  have gone := (mem_dropped_names.mp dropped).2
  have untouched : ∀ f, tableGet fromSchema t.name = some f → t.name ∉ done → t = f := by
    intro f here not_done
    have same := planned.untouched split nodup applied (by
      rw [shape]
      intro b listed_b named
      rcases List.mem_append.mp listed_b with creation | drop
      · obtain ⟨x, x_created, rfl⟩ := List.mem_map.mp creation
        have x_named : x.name = t.name := named
        have absent := ((planned.mem_created x).mp x_created).2
        rw [x_named, here] at absent
        cases absent
      · obtain ⟨n, n_done, rfl⟩ := List.mem_map.mp drop
        have n_named : n = t.name := named
        exact not_done (n_named ▸ n_done))
    rw [found, here] at same
    exact Option.some.inj same
  rcases Option.eq_none_or_eq_some (tableGet fromSchema t.name) with none_here | ⟨f, here⟩
  · rcases Option.eq_none_or_eq_some (tableGet toSchema t.name) with none_there | ⟨u, there⟩
    · have same := planned.unplanned split nodup applied (by
        rw [tablePlan, none_here, none_there])
      rw [found, none_here] at same
      cases same
    · have named := (KeyedView.get_some there).2
      have u_created : u ∈ created := (planned.mem_created u).mpr (named ▸ ⟨there, none_here⟩)
      obtain ⟨w, target, _⟩ := planned.created_refers nodup split applied found mem refers resolvable
        u_created named (by
          rw [shape]
          exact List.mem_append_left _ (List.mem_map_of_mem u_created))
      rw [Option.mem_def, gone] at target
      cases target
  · rcases Option.eq_none_or_eq_some (tableGet toSchema t.name) with none_there | ⟨u, there⟩
    · have t_dropped : t.name ∈ droppedNames fromSchema toSchema := by
        simp [mem_dropped_names, here, none_there]
      have not_done : t.name ∉ done := by
        intro t_done
        have absent := planned.dropped_by_then split nodup applied t_dropped (by
          rw [shape]
          exact List.mem_append_right _ (List.mem_map_of_mem t_done))
        rw [found] at absent
        cases absent
      obtain rfl := untouched f here not_done
      have t_listed : t.name ∈ done ++ reference.1 :: todo := listed ▸ perm.mem_iff.mpr t_dropped
      have t_todo : t.name ∈ todo := by
        rcases List.mem_append.mp t_listed with t_done | rest
        · exact absurd t_done not_done
        · exact (List.mem_cons.mp rest).resolve_left other
      have order := drop_order_pairwise dropped_names_nodup (drops_acyclic acyclic)
      rw [listed] at order
      refine (List.pairwise_cons.mp (List.pairwise_append.mp order).2.1).1 t.name t_todo
        ⟨normalized t, ?_, c, mem, table_of_reference refers⟩
      rw [table_get_normalized, here, Option.map_some]
    · have not_done : t.name ∉ done := by
        intro t_done
        have t_dropped : t.name ∈ droppedNames fromSchema toSchema :=
          perm.mem_iff.mp (listed ▸ List.mem_append_left _ t_done)
        have absent := (mem_dropped_names.mp t_dropped).2
        rw [there] at absent
        cases absent
      obtain rfl := untouched f here not_done
      exact stays t (KeyedView.get_some here).1 (by rw [there]; rfl) c mem reference refers
        dropped

theorem Planned.column_drop_unreferenced (resolvable : Resolvable toSchema)
    (ready : DropsReady fromSchema toSchema) {done todo : List String} {name : String}
    {front rest : List MigrationAction} (listed : tableKeys toSchema = done ++ name :: todo)
    (block : earlyBlock fromSchema toSchema (created.map (·.name)) edits name = front ++ a :: rest)
    (shape : before = creations created ++ drops fromSchema toSchema ++
      (done.flatMap (earlyBlock fromSchema toSchema (created.map (·.name)) edits) ++ front))
    {f w : TableDef} (stays : tableGet fromSchema reference.1 = some f)
    (target : tableGet toSchema reference.1 = some w) (same : reference.1 = name)
    {column : String} (column_drop : column ∈ droppedColumns f w) (other : t.name ≠ name) :
    column ∉ reference.2 := by
  intro needed
  have not_provided : ¬ Provides toSchema reference := by
    rintro ⟨w', target', columns⟩
    obtain rfl := Option.some.inj (target.symm.trans target')
    exact (mem_dropped.mp column_drop).2 (columns column needed)
  rcases Option.eq_none_or_eq_some (tableGet fromSchema t.name) with none_here | ⟨t₀, here⟩
  · rcases Option.eq_none_or_eq_some (tableGet toSchema t.name) with none_there | ⟨u, there⟩
    · have left := planned.unplanned split nodup applied (by rw [tablePlan, none_here, none_there])
      rw [found, none_here] at left
      cases left
    · have named := (KeyedView.get_some there).2
      have u_created : u ∈ created := (planned.mem_created u).mpr (named ▸ ⟨there, none_here⟩)
      refine not_provided (planned.created_refers nodup split applied found mem refers
        (planned.created_resolvable resolvable) u_created named ?_)
      rw [shape]
      simp only [List.mem_append, List.mem_map]
      exact .inl (.inl ⟨u, u_created, rfl⟩)
  · rcases Option.eq_none_or_eq_some (tableGet toSchema t.name) with none_there | ⟨u, there⟩
    · have t_dropped : t.name ∈ droppedNames fromSchema toSchema := by
        simp [mem_dropped_names, here, none_there]
      have absent := planned.dropped_by_then split nodup applied t_dropped (by
        rw [shape]
        simp only [List.mem_append, List.mem_map]
        exact .inl (.inr ⟨t.name, (drop_order_perm _ _).mem_iff.mpr t_dropped, rfl⟩))
      rw [found] at absent
      cases absent
    · rcases lt_or_gt_of_ne other with before_it | after_it
      · obtain ⟨r, reached, replaceable, left⟩ :=
          planned.earlier_table listed block shape split nodup applied before_it here there
        obtain rfl := Option.some.inj (found.symm.trans reached)
        obtain ⟨regular, named⟩ := table_get_regular planned.from_regular here
        have added : ∀ d ∈ (additions t₀.name t₀ (normalized u)).filter
            (! needsCreated (created.map (·.name)) ·), d ∈ promoted u ∧ d ∉ promoted t₀ :=
          fun d mem => added_gained t₀.name (List.mem_of_mem_filter mem)
        rcases left_foreign_keys left regular replaceable (fun d mem => (added d mem).1)
          (fun d mem => (added d mem).2) mem refers with wanted | leftover
        · exact not_provided (resolvable_get resolvable there wanted refers)
        · have carried : c ∈ carriedConstraints t₀ u := by
            have more : 0 < (carriedConstraints t₀ (normalized u)).count c := by
              have fewer := leftover.2.1
              omega
            exact List.count_pos_iff.mp more
          refine ready.earlier t₀ (KeyedView.get_some here).1 u (named ▸ there) c carried leftover
            reference refers ?_ f stays w target column needed column_drop
          rw [named, same]
          exact before_it
      · have left := planned.later_table listed block shape split nodup applied after_it here there
        obtain rfl := Option.some.inj (found.symm.trans left)
        refine ready.later t (KeyedView.get_some here).1 (by rw [there]; rfl) c mem reference refers
          ?_ f stays w target column needed column_drop
        rw [same]
        exact after_it

end Planned

theorem Planned.drops_unreferenced {fromSchema toSchema created : List TableDef}
    {edits : String → List MigrationAction} {actions : List MigrationAction}
    (planned : Planned fromSchema toSchema created edits actions)
    (nodup : TableNamesNodup fromSchema) (resolvable : Resolvable toSchema)
    (acyclic : DropsAcyclic fromSchema toSchema) (ready : DropsReady fromSchema toSchema) :
    DropsUnreferenced fromSchema actions := by
  intro before a after split schema applied t t_mem other c mem reference refers
  have found : tableGet schema t.name = some t :=
    KeyedView.get_of_nodup (replay_nodup nodup (planned.prefix_local split) applied) t_mem
  have step := planned.step split
  generalize shape : before = shaped at step
  cases step with
  | creation _ => rfl
  | drop listed =>
    have apart := planned.table_drop_unreferenced nodup split applied found mem refers
      (planned.created_resolvable resolvable) ready.tables acyclic listed shape other
    simpa [takesAway] using apart
  | @early done todo name front rest a listed block =>
    rw [List.append_assoc] at shape
    have own_block := block
    unfold earlyBlock at own_block
    split at own_block
    · rename_i f w stays target
      have in_block : a ∈ tableActions name f (normalized w) (edits name)
          ((additions name f (normalized w)).filter (! needsCreated (created.map (·.name)) ·)) :=
        own_block ▸ by simp
      have perm := planned.edits_perm name f w stays target
      rcases table_action_cases (u := normalized w) perm in_block with ⟨column, column_drop, rfl⟩ |
        edit | ⟨column, _, rfl⟩ | ⟨old, new, rfl, _⟩ | ⟨d, _, rfl⟩ | ⟨d, _, rfl⟩
      · by_cases same : reference.1 = name
        · have apart := planned.column_drop_unreferenced (w := w) nodup split applied found
            mem refers resolvable ready listed block shape (same ▸ stays) (same ▸ target) same
            column_drop other
          simp [takesAway, apart]
        · simp [takesAway, same]
      · obtain ⟨_, column, f, about⟩ := attribute_edit_cases edit
        cases a <;> first | (cases about; done) | rfl
      · rfl
      · rfl
      · rfl
      · rfl
    · simp at own_block
  | @late done todo name front rest a _ block =>
    have in_block : a ∈ lateBlock fromSchema toSchema (created.map (·.name)) name :=
      block ▸ by simp
    unfold lateBlock at in_block
    split at in_block
    · obtain ⟨d, _, rfl⟩ := List.mem_map.mp in_block
      rfl
    · cases in_block

/-- Over the run of a computed plan nothing is dropped that another table references,
    as long as the baseline has no such reference from a table whose actions come later. -/
theorem plan_drops_unreferenced {baseline target : List TableDef} {plan : MigrationPlan}
    (nodup : TableNamesNodup baseline) (resolvable : Resolvable target)
    (acyclic : DropsAcyclic baseline target) (ready : DropsReady baseline target)
    (diffed : diffSchemas baseline target = .ok plan) :
    DropsUnreferenced baseline plan.actions := by
  obtain ⟨created, edits, planned⟩ := diff_schemas_planned diffed
  exact planned.drops_unreferenced nodup resolvable acyclic ready

set_option maxRecDepth 100000 in
theorem family_plan : diffSchemas [parentTable ["id"], childTable "id"] [] =
    .ok ⟨"", none, none, 0, [.deleteTable "child", .deleteTable "parent"]⟩ := by
  decide

set_option maxRecDepth 100000 in
theorem family_acyclic : DropsAcyclic [parentTable ["id"], childTable "id"] [] := by
  have only : ∀ a b, DropDependency [parentTable ["id"], childTable "id"] [] a b →
      a = "parent" ∧ b = "child" := by
    rintro a b ⟨_, _, _, t, found, c, mem, refers⟩
    have parent : ∀ s ∈ [parentTable ["id"], childTable "id"].map normalized,
        ∀ c ∈ s.constraints, ∀ r ∈ refTableOf c, r = "parent" ∧ s.name = "child" := by decide
    obtain ⟨listed, rfl⟩ := KeyedView.get_some found
    exact parent t listed c mem a refers
  intro name cycle
  obtain ⟨next, first, _⟩ := Relation.TransGen.head'_iff.mp cycle
  obtain ⟨previous, _, last⟩ := Relation.TransGen.tail'_iff.mp cycle
  have is_parent := (only _ _ first).1
  have is_child := (only _ _ last).2
  rw [is_parent] at is_child
  exact absurd is_child (by decide)

set_option maxRecDepth 100000 in
theorem family_dropped_in_order : DropsUnreferenced [parentTable ["id"], childTable "id"]
    [.deleteTable "child", .deleteTable "parent"] :=
  plan_drops_unreferenced (by decide) (by decide) family_acyclic (by constructor <;> decide)
    family_plan

def orphanTable : TableDef := ⟨"child", none, [.new "id" (.simple .integer) false], []⟩

set_option maxRecDepth 100000 in
theorem orphan_plan : diffSchemas [parentTable ["id"], childTable "id"] [orphanTable] =
    .ok ⟨"", none, none, 0, [.deleteTable "parent", .removeConstraint "child" (toParent "id")]⟩ := by
  decide

set_option maxRecDepth 100000 in
theorem orphan_acyclic : DropsAcyclic [parentTable ["id"], childTable "id"] [orphanTable] := by
  have none_left : ∀ a b, ¬ DropDependency [parentTable ["id"], childTable "id"] [orphanTable] a b := by
    rintro a b ⟨b_dropped, a_dropped, other, _⟩
    have only : ∀ n ∈ droppedNames [parentTable ["id"], childTable "id"] [orphanTable],
        n = "parent" := by decide
    exact other ((only a a_dropped).trans (only b b_dropped).symm)
  intro name cycle
  obtain ⟨next, first, _⟩ := Relation.TransGen.head'_iff.mp cycle
  exact none_left _ _ first

/-- The table is dropped before the foreign key of a table that stays is removed. -/
theorem dropped_while_referenced :
    ¬ ∀ baseline target plan, TableNamesNodup baseline → Resolvable baseline →
      Resolvable target → DropsAcyclic baseline target →
      diffSchemas baseline target = .ok plan → DropsUnreferenced baseline plan.actions := by
  intro unreferenced
  have free := unreferenced _ _ _ (by decide) (by decide) (by decide) orphan_acyclic orphan_plan
    [] _ _ rfl _ rfl (childTable "id") (by decide) (by decide) (toParent "id") (by decide)
    ("parent", ["id"]) rfl
  revert free
  decide

end Vespertide
