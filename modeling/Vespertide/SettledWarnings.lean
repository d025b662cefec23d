import Vespertide.DropSession

/-!
The warnings about type changes, asked for after the drops are settled. They look
columns up in the baseline, which knows none of the names that a rename brings.
-/
namespace Vespertide

theorem brought_type_change {baseline models : List TableDef} {target : DropTarget} {new : String}
    {addition : MigrationAction} {table column : String} {newType : ColumnType}
    {fillWith : Option (List (String × String))} {narrowing : Option NarrowingStrategy}
    {timezone : Option String}
    (mem : MigrationAction.modifyColumnType table column newType fillWith narrowing timezone ∈
      (renamingOf baseline models target new).replacement addition) :
    (∃ old shown, target = .column table old shown ∧ column = new) ∨
      ∃ old, target = .table old ∧ table = new := by
  cases target with
  | column t old shown =>
    change _ ∈ columnRename baseline t old new addition at mem
    unfold columnRename at mem
    split at mem
    · rcases List.mem_cons.mp mem with same | follow_up
      · cases same
      · split at follow_up
        · rcases property_change_cases follow_up with same | same | same
          · cases same
            exact .inl ⟨old, shown, rfl, rfl⟩
          · cases same
          · cases same
        · cases follow_up
    · cases mem
  | table old =>
    change _ ∈ tableRename baseline old new addition at mem
    unfold tableRename at mem
    split at mem
    · rcases List.mem_cons.mp mem with same | follow_up
      · cases same
      · split at follow_up
        · rcases List.mem_append.mp follow_up with change | change
          · exact .inr ⟨old, rfl, (diff_table_columns_edit _ change).2⟩
          · exact .inr ⟨old, rfl, (diff_table_constraints_edit _ change).2⟩
        · cases follow_up
    · cases mem

theorem drop_no_addition {baseline models : List TableDef} (target : DropTarget) (new : String)
    {a : MigrationAction} (drops : (renamingOf baseline models target new).isDrop a = true) :
    (renamingOf baseline models target new).isAddition a = false := by
  cases target with
  | column table old shown =>
    change dropsColumn table old a = true at drops
    cases a <;> first | rfl | cases drops
  | table old =>
    change deletesTable old a = true at drops
    cases a <;> first | rfl | cases drops

section Session
variable {lowercase : String → String} {baseline models : List TableDef} {plan : MigrationPlan}
  {chosen : List (DropResolution × DropChoice)}
  (answered : Answered lowercase baseline models plan chosen)
include answered

theorem Answered.brought_unknown {p : DropResolution × DropChoice} (mem : p ∈ chosen)
    {new : String} (chose : p.2 = .renameTo new) {addition : MigrationAction}
    {table column : String} {newType : ColumnType} {fillWith : Option (List (String × String))}
    {narrowing : Option NarrowingStrategy} {timezone : Option String}
    (brought : MigrationAction.modifyColumnType table column newType fillWith narrowing timezone ∈
      (renamingOf baseline models p.1.target new).replacement addition) :
    findColumnInSchema baseline table column = none := by
  obtain ⟨created, edits, planned⟩ := diff_schemas_planned answered.diffed
  rcases brought_type_change brought with ⟨old, shown, about, rfl⟩ | ⟨old, about, rfl⟩
  · obtain ⟨t, u, wanted, here, there, _, rfl, _, fresh⟩ :=
      answered.column_choice mem about chose
    have u_nodup : (normalized u).columnNames.Nodup :=
      (planned.to_regular u (KeyedView.get_some there).1).nodup
    obtain ⟨d, _, absent, twin⟩ := (mem_added u_nodup).mp fresh
    have stripped := congrArg ColumnDef.name twin
    have named : wanted.name = d.name := stripped
    have found : baseline.find? (·.name = table) = some t :=
      (table_at_get answered.names table).trans here
    rw [findColumnInSchema, found, Option.bind_some, List.find?_eq_none]
    intro c listed same
    exact absent (named ▸ of_decide_eq_true same ▸ List.mem_map_of_mem listed)
  · obtain ⟨_, _, _, _, absent, _⟩ := answered.table_choice mem about chose
    have missing : baseline.find? (·.name = table) = none :=
      (table_at_get answered.names table).trans absent
    rw [findColumnInSchema, missing]
    rfl

/-- The answers leave the type changes of known columns as they were, and in their order. -/
theorem Answered.known_types_kept {settled : List MigrationAction}
    (ran : applyDropResolutions baseline chosen plan.actions = .ok settled)
    {q : MigrationAction → Bool}
    (known : ∀ a, q a = true → ∃ table column newType fillWith narrowing timezone,
      a = .modifyColumnType table column newType fillWith narrowing timezone ∧
        findColumnInSchema baseline table column ≠ none) :
    settled.filter q = plan.actions.filter q := by
  have blind : ∀ p ∈ chosen, ∀ new, p.2 = .renameTo new → ∀ {actions rewritten},
      (renamingOf baseline models p.1.target new).apply actions = .ok rewritten →
        rewritten.filter q = actions.filter q := by
    intro p mem new chose actions rewritten applied
    refine rewrite_filter (fun a => drop_no_addition p.1.target new) applied ?_ ?_ ?_
    · intro a drops
      by_contra passes
      obtain ⟨_, _, _, _, _, _, rfl, _⟩ := known a (by simpa using passes)
      unfold renamingOf at drops
      split at drops <;> cases drops
    · intro a adds
      by_contra passes
      obtain ⟨_, _, _, _, _, _, rfl, _⟩ := known a (by simpa using passes)
      unfold renamingOf at adds
      split at adds <;> cases adds
    · intro a b brought
      by_contra passes
      obtain ⟨_, _, _, _, _, _, rfl, there⟩ := known b (by simpa using passes)
      exact there (answered.brought_unknown mem chose brought)
  have run : ∀ {answers : List (DropResolution × DropChoice)}, (∀ p ∈ answers, p ∈ chosen) →
      ∀ {actions}, (answers.filterMap (renamingAnswer baseline models)).foldlM
        (fun actions r => r.apply actions) actions = .ok settled →
          settled.filter q = actions.filter q := by
    intro answers
    induction answers with
    | nil =>
      intro _ actions done
      obtain rfl := Except.ok.inj done
      rfl
    | cons p rest ih =>
      intro among actions done
      obtain ⟨here, later⟩ := List.forall_mem_cons.mp among
      obtain ⟨resolution, choice⟩ := p
      cases choice with
      | drop => exact ih later done
      | renameTo new =>
        rw [List.filterMap_cons, renamingAnswer, List.foldlM_cons] at done
        obtain ⟨next, applied, done⟩ := Results.bind_ok done
        rw [ih later done, blind _ here new rfl applied]
  rw [applyDropResolutions, last_first answered.ascending, apply_answers baseline models] at ran
  exact run (fun p mem => List.mem_reverse.mp mem) ran

end Session

def TypeNarrowingWarning.unplaced (w : TypeNarrowingWarning) : TypeNarrowingWarning :=
  { w with actionIndex := 0 }

def TimezoneConversionWarning.unplaced (w : TimezoneConversionWarning) :
    TimezoneConversionWarning := { w with actionIndex := 0 }

theorem narrowing_known {lowercase : String → String} {baseline : List TableDef} {i : Nat}
    {a : MigrationAction} (warned : (typeNarrowing lowercase baseline i a).isSome = true) :
    ∃ table column newType fillWith narrowing timezone,
      a = .modifyColumnType table column newType fillWith narrowing timezone ∧
        findColumnInSchema baseline table column ≠ none := by
  cases a with
  | modifyColumnType table column newType fillWith narrowing timezone =>
    refine ⟨table, column, newType, fillWith, narrowing, timezone, rfl, fun unknown => ?_⟩
    simp [typeNarrowing, unknown] at warned
  | _ => cases warned

theorem conversion_known {baseline : List TableDef} {i : Nat} {a : MigrationAction}
    (warned : (timezoneConversion baseline i a).isSome = true) :
    ∃ table column newType fillWith narrowing timezone,
      a = .modifyColumnType table column newType fillWith narrowing timezone ∧
        findColumnInSchema baseline table column ≠ none := by
  cases a with
  | modifyColumnType table column newType fillWith narrowing timezone =>
    refine ⟨table, column, newType, fillWith, narrowing, timezone, rfl, fun unknown => ?_⟩
    simp [timezoneConversion, unknown] at warned
  | _ => cases warned

theorem filter_map_kept {α β : Type} (f : α → Option β) (xs : List α) :
    xs.filterMap f = (xs.filter fun x => (f x).isSome).filterMap f := by
  rw [List.filterMap_filter]
  refine List.filterMap_congr fun x _ => ?_
  cases f x <;> rfl

/-- The warnings on the rewritten plan are those on the plan, whatever the renames bring:
    a type change of a renamed column is in the rewritten plan, and nothing is asked about it. -/
theorem settled_warnings {lowercase : String → String} {baseline models : List TableDef}
    {plan : MigrationPlan} {chosen : List (DropResolution × DropChoice)}
    (answered : Answered lowercase baseline models plan chosen) {settled : List MigrationAction}
    (ran : applyDropResolutions baseline chosen plan.actions = .ok settled) :
    (findTypeNarrowings lowercase { plan with actions := settled } baseline).map (·.unplaced) =
        (findTypeNarrowings lowercase plan baseline).map (·.unplaced) ∧
      (findTimezoneConversions { plan with actions := settled } baseline).map (·.unplaced) =
        (findTimezoneConversions plan baseline).map (·.unplaced) ∧
      ∀ p ∈ chosen, ∀ table old shown new was wanted, p.1.target = .column table old shown →
        p.2 = .renameTo new → columnOf baseline table old = some was →
          columnOf models table new = some wanted → was.type ≠ wanted.type →
            .modifyColumnType table new wanted.type none none none ∈ settled ∧
              (∀ w ∈ findTypeNarrowings lowercase { plan with actions := settled } baseline,
                (w.table, w.column) ≠ (table, new)) ∧
              ∀ w ∈ findTimezoneConversions { plan with actions := settled } baseline,
                (w.table, w.column) ≠ (table, new) := by
  have narrowings : (findTypeNarrowings lowercase { plan with actions := settled } baseline).map
      (·.unplaced) = (findTypeNarrowings lowercase plan baseline).map (·.unplaced) := by
    have alike : ∀ i a, (typeNarrowing lowercase baseline i a).map TypeNarrowingWarning.unplaced =
        typeNarrowing lowercase baseline 0 a := by
      intro i a
      cases a <;> try rfl
      simp [typeNarrowing, TypeNarrowingWarning.unplaced, Option.map_bind, Function.comp_def]
    rw [findTypeNarrowings, findTypeNarrowings, scan_unplaced alike, scan_unplaced alike,
      filter_map_kept, answered.known_types_kept ran fun a => narrowing_known, ← filter_map_kept]
  have conversions : (findTimezoneConversions { plan with actions := settled } baseline).map
      (·.unplaced) = (findTimezoneConversions plan baseline).map (·.unplaced) := by
    have alike : ∀ i a, (timezoneConversion baseline i a).map TimezoneConversionWarning.unplaced =
        timezoneConversion baseline 0 a := by
      intro i a
      cases a <;> try rfl
      simp [timezoneConversion, TimezoneConversionWarning.unplaced, Option.map_bind,
        Function.comp_def]
    rw [findTimezoneConversions, findTimezoneConversions, scan_unplaced alike, scan_unplaced alike,
      filter_map_kept, answered.known_types_kept ran fun a => conversion_known, ← filter_map_kept]
  refine ⟨narrowings, conversions, ?_⟩
  intro p mem table old shown new was wanted about chose was_of declared differ
  obtain ⟨created, edits, planned⟩ := diff_schemas_planned answered.diffed
  obtain ⟨t, u, wanted', here, there, dropped, rfl, declared', fresh⟩ :=
    answered.column_choice mem about chose
  obtain rfl := Option.some.inj (declared.symm.trans declared')
  have first : baseline.find? (·.name = table) = some t :=
    (table_at_get answered.names table).trans here
  have u_nodup : (normalized u).columnNames.Nodup :=
    (planned.to_regular u (KeyedView.get_some there).1).nodup
  -- the old column is the one that the follow-up changes start from
  have known : findColumnInSchema baseline table old = some was := by
    rw [columnOf, here] at was_of
    rw [findColumnInSchema, first]
    exact find_column (planned.from_regular t (KeyedView.get_some here).1).nodup was_of
  have unknown : findColumnInSchema baseline table wanted.name = none := by
    obtain ⟨d, _, absent, twin⟩ := (mem_added u_nodup).mp fresh
    have stripped := congrArg ColumnDef.name twin
    have named : wanted.name = d.name := stripped
    rw [findColumnInSchema, first, Option.bind_some, List.find?_eq_none]
    intro c listed same
    exact absent (named ▸ of_decide_eq_true same ▸ List.mem_map_of_mem listed)
  refine ⟨?_, ?_, ?_⟩
  · obtain ⟨settled', ran', _, finished, _⟩ :=
      answered.runs (answered.targets_once ran)
    obtain rfl := Except.ok.inj (ran.symm.trans ran')
    obtain ⟨addition, listed, adds, _, inside⟩ := finished p mem _ chose
    rw [about] at listed adds inside
    change addsColumn table wanted.name addition = true at adds
    change settled.filter _ = columnRename baseline table old wanted.name addition at inside
    cases addition with
    | addColumn t' added fillWith =>
      simp only [addsColumn, Bool.and_eq_true, decide_eq_true_eq] at adds
      obtain ⟨own, named⟩ := adds
      obtain rfl := own.symm
      obtain ⟨_, t', u', same, same', fresh'⟩ :=
        planned.column_added.mp (List.mem_filter.mp listed).1
      obtain rfl := Option.some.inj (there.symm.trans same')
      obtain rfl := Option.some.inj (here.symm.trans same)
      -- the addition of the name is that of the declared column
      have added_type : added.type = wanted.type := by
        obtain ⟨d, in_u, _, rfl⟩ := (mem_added u_nodup).mp fresh'
        have nodup := (planned.to_regular u (KeyedView.get_some there).1).nodup
        have stripped : d.name = wanted.name := named
        have found : columnGet u.columns d.name = some d := KeyedView.get_of_nodup u_nodup in_u
        rw [columnOf, there, Option.bind_some, ← stripped, found] at declared
        obtain rfl := Option.some.inj declared
        rfl
      have changes : .modifyColumnType table wanted.name wanted.type none none none ∈
          columnRename baseline table old wanted.name
            (MigrationAction.addColumn table added fillWith) := by
        simp [columnRename, known, propertyChanges, added_type, differ]
      rw [← inside] at changes
      exact (List.mem_filter.mp changes).1
    | _ => cases adds
  · intro w warned same
    obtain ⟨i, a, _, found⟩ := mem_scan.mp warned
    cases a with
    | modifyColumnType t' c newType fillWith narrowing timezone =>
      obtain ⟨c', there', found⟩ := Option.bind_eq_some_iff.mp found
      obtain ⟨kind, _, rfl⟩ := Option.map_eq_some_iff.mp found
      obtain ⟨rfl, rfl⟩ := Prod.mk.inj same
      rw [unknown] at there'
      cases there'
    | _ => cases found
  · intro w warned same
    obtain ⟨i, a, _, found⟩ := mem_scan.mp warned
    cases a with
    | modifyColumnType t' c newType fillWith narrowing timezone =>
      obtain ⟨c', there', found⟩ := Option.bind_eq_some_iff.mp found
      obtain ⟨direction, _, rfl⟩ := Option.map_eq_some_iff.mp found
      obtain ⟨rfl, rfl⟩ := Prod.mk.inj same
      rw [unknown] at there'
      cases there'
    | _ => cases found

def shortContact : ColumnDef := .new "contact" (.complex (.varchar 10)) false

def shortContactPlan : MigrationPlan :=
  ⟨"", none, none, 0, [.deleteColumn "member" "mail",
    MigrationAction.addColumn "member" shortContact none]⟩

def mailShortened : List (DropResolution × DropChoice) :=
  [(memberDrop 0 "mail" "text NOT NULL" .different
    ["type: text NOT NULL → varchar(10) NOT NULL"], .renameTo "contact")]

set_option maxRecDepth 100000 in
/-- Texts are cut to ten characters, and nothing is asked. -/
theorem short_contact_unasked :
    isNarrowing mailColumn.type shortContact.type = some (.textToVarchar 10) ∧
      ∃ settled, .modifyColumnType "member" "contact" shortContact.type none none none ∈ settled ∧
        (findTypeNarrowings id { shortContactPlan with actions := settled }
          [contactTable [mailColumn]]).map (·.unplaced) =
          (findTypeNarrowings id shortContactPlan [contactTable [mailColumn]]).map (·.unplaced) := by
  have answered : Answered id [contactTable [mailColumn]] [contactTable [shortContact]]
      shortContactPlan mailShortened :=
    ⟨by decide, by decide, by decide, by simp [mailShortened, memberDrop]⟩
  have ran : applyDropResolutions [contactTable [mailColumn]] mailShortened
      shortContactPlan.actions = .ok [.renameColumn "member" "mail" "contact",
        .modifyColumnType "member" "contact" shortContact.type none none none] := by decide
  obtain ⟨same, _, brought⟩ := settled_warnings answered ran
  refine ⟨by decide, _, ?_, same⟩
  exact (brought _ (List.mem_singleton_self _) "member" "mail" _ "contact" mailColumn shortContact
    rfl rfl (by decide) (by decide) (by decide)).1

end Vespertide
