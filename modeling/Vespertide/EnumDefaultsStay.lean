import Vespertide.EnumDefaults

/-!
The columns of a plan's intermediate schemas: each is one of the target as it
was added, or one of the baseline after the attribute changes so far. From these
the defaults of the string enums are read off.
-/
namespace Vespertide
open Components Rearrange

/-! Columns through edits -/

theorem edit_column_strip (a : MigrationAction) (c : ColumnDef) :
    (editColumn a c).stripInline = editColumn a c.stripInline := by
  cases a <;> simp only [editColumn, columnEdit, ColumnDef.stripInline] <;>
    split <;> simp [*]

theorem edit_all_strip (actions : List MigrationAction) (c : ColumnDef) :
    (editAll actions c).stripInline = editAll actions c.stripInline := by
  induction actions generalizing c with
  | nil => rfl
  | cons a actions ih => exact (ih _).trans (congrArg (editAll actions) (edit_column_strip a c))

section Steps
variable {a : MigrationAction} {t r : TableDef} {c : ColumnDef}

theorem step_columns (nodup : t.columnNames.Nodup)
    (unnamed : ∀ table old new, a ≠ .renameColumn table old new)
    (stepped : editStep a t = some r) (mem : c ∈ r.columns) :
    (∃ c₀ ∈ t.columns, c.stripInline = (editColumn a c₀).stripInline) ∨
      ∃ table fillWith, a = .addColumn table c fillWith := by
  have ok : (tableEdit a t).error = none := by
    by_contra failed
    simp [editStep, Outcome.toOption, failed] at stepped
  have reached : (tableEdit a t).state = r := Outcome.to_option_state stepped
  have cleared : ∀ table constraint, c ∈ clearInlineConstraintFields table constraint t.columns →
      ∃ c₀ ∈ t.columns, c.stripInline = c₀.stripInline := by
    intro table constraint here
    have same := List.mem_map_of_mem (f := ColumnDef.stripInline) here
    rw [cleared_attributes] at same
    obtain ⟨c₀, there, strip⟩ := List.mem_map.mp same
    exact ⟨c₀, there, strip.symm⟩
  have edited : ∀ column f, columnEdit a = some (column, f) → column ∈ t.columnNames →
      ∃ c₀ ∈ t.columns, c.stripInline = (editColumn a c₀).stripInline := by
    intro column f edit present
    rw [step_column_edit edit nodup present] at stepped
    obtain rfl := Option.some.inj stepped
    obtain ⟨c₀, there, rfl⟩ := List.mem_map.mp mem
    exact ⟨c₀, there, rfl⟩
  have present : ∀ table column f, (onColumn table column f t).error = none →
      column ∈ t.columnNames := by
    intro table column f ok
    by_contra absent
    simp [onColumn, absent, Outcome.fail] at ok
  subst reached
  cases a with
  | addColumn table column fillWith =>
    by_cases used : column.name ∈ t.columnNames
    · simp [tableEdit, add_column_present used, Outcome.fail] at ok
    · by_cases accepted : Normalizable (t.columns ++ [column])
      · simp only [tableEdit, add_column_to used accepted, Outcome.ok, List.mem_append,
          List.mem_singleton] at mem
        rcases mem with old | rfl
        · exact .inl ⟨c, old, rfl⟩
        · exact .inr ⟨table, fillWith, rfl⟩
      · exact absurd ok (add_column_refused table used accepted).2
  | renameColumn table old new => exact absurd rfl (unnamed table old new)
  | deleteColumn table column =>
    simp only [tableEdit, deleteColumnFrom] at mem
    split at mem <;> exact .inl ⟨c, List.mem_of_mem_filter mem, rfl⟩
  | addConstraint table constraint =>
    simp only [tableEdit, addConstraintTo, Outcome.ok] at mem
    split at mem <;> exact .inl ⟨c, mem, rfl⟩
  | removeConstraint table constraint => exact .inl (cleared table constraint mem)
  | replaceConstraint table old new =>
    simp only [tableEdit, replaceConstraintIn] at mem
    split at mem
    · exact .inl (cleared table old mem)
    · exact .inl ⟨c, mem, rfl⟩
  | modifyColumnType table column newType =>
    exact .inl (edited column _ rfl (present table column _ ok))
  | modifyColumnNullable table column nullable =>
    exact .inl (edited column _ rfl (present table column _ ok))
  | modifyColumnDefault table column newDefault =>
    exact .inl (edited column _ rfl (present table column _ ok))
  | modifyColumnComment table column newComment =>
    exact .inl (edited column _ rfl (present table column _ ok))
  | remapEnumValues table column mapping =>
    exact .inl (edited column _ rfl (present table column _ ok))
  | _ => exact .inl ⟨c, mem, rfl⟩

/-- A column after a run of edits: from before, or added on the way and edited from then on. -/
theorem run_columns {actions : List MigrationAction} {c : ColumnDef} (nodup : t.columnNames.Nodup)
    (edits : ∀ a ∈ actions, isEdit a = true ∧ ∀ table old new, a ≠ .renameColumn table old new)
    (ran : run editStep actions t = some r) (mem : c ∈ r.columns) :
    (∃ c₀ ∈ t.columns, c.stripInline = (editAll actions c₀).stripInline) ∨
      ∃ front table column fillWith back, actions = front ++ .addColumn table column fillWith :: back ∧
        c.stripInline = (editAll back column).stripInline := by
  induction actions generalizing t with
  | nil =>
    obtain rfl := Option.some.inj ran
    exact .inl ⟨c, mem, rfl⟩
  | cons a actions ih =>
    obtain ⟨⟨edit, unnamed⟩, rest⟩ := List.forall_mem_cons.mp edits
    rw [run_cons] at ran
    obtain ⟨t', stepped, later⟩ := Option.bind_eq_some_iff.mp ran
    have brings : BringsDistinct a := by
      cases a <;> first | trivial | exact absurd rfl (unnamed _ _ _)
    have next : t'.columnNames.Nodup :=
      Outcome.to_option_state stepped ▸ edit_names_nodup nodup brings
    have carried : ∀ c₁ c₂ : ColumnDef, c₁.stripInline = c₂.stripInline →
        (editAll actions c₁).stripInline = (editAll actions c₂).stripInline := by
      intro c₁ c₂ same
      rw [edit_all_strip, edit_all_strip, same]
    rcases ih next rest later with ⟨c₁, here, same⟩ | ⟨front, table, column, fill, back, rfl, same⟩
    · rcases step_columns nodup unnamed stepped here with ⟨c₀, there, strip⟩ | ⟨table, fill, rfl⟩
      · exact .inl ⟨c₀, there, same.trans (carried _ _ strip)⟩
      · exact .inr ⟨[], table, c₁, fill, actions, rfl, same⟩
    · exact .inr ⟨a :: front, table, column, fill, back, rfl, same⟩

end Steps

/-! What a column holds after some of its changes -/

theorem string_values_remap (mapping : List (Int × Int)) (type : ColumnType) :
    stringEnumValues (remapType mapping type) = stringEnumValues type := by
  unfold remapType
  split <;> rfl

theorem member_congr {type type' : ColumnType} {default default' : Option DefaultValue}
    (values : stringEnumValues type = stringEnumValues type')
    (texts : default.map (·.toSql) = default'.map (·.toSql)) :
    DefaultMember type default ↔ DefaultMember type' default' := by
  have by_text : ∀ default : Option DefaultValue,
      (∀ values ∈ stringEnumValues type', ∀ d ∈ default, ∀ value ∈ extractEnumValue d.toSql,
        value ∈ values) ↔ ∀ values ∈ stringEnumValues type', ∀ text ∈ default.map (·.toSql),
          ∀ value ∈ extractEnumValue text, value ∈ values := by
    intro default
    cases default <;> simp
  unfold DefaultMember
  rw [values, by_text, by_text, texts]

theorem to_sql_again (default : Option DefaultValue) :
    ((default.map (·.toSql)).map DefaultValue.string).map (·.toSql) = default.map (·.toSql) := by
  cases default with
  | none => rfl
  | some d => exact congrArg some (to_sql_string d)

section Values
variable {name : String} {fromDef toDef : ColumnDef}

def typeChangeTo (name : String) (toDef : ColumnDef) : MigrationAction :=
  .modifyColumnType name toDef.name toDef.type none none none

def defaultChangeTo (name : String) (toDef : ColumnDef) : MigrationAction :=
  .modifyColumnDefault name toDef.name (toDef.default.map (·.toSql)) none

theorem edit_all_values {actions : List MigrationAction} (named : fromDef.name = toDef.name)
    (own : ∀ a ∈ actions, ∀ f, columnEdit a = some (toDef.name, f) →
      a ∈ columnEditsOf name fromDef toDef) :
    stringEnumValues (editAll actions fromDef).type =
        stringEnumValues (if typeChangeTo name toDef ∈ actions then toDef.type else fromDef.type) ∧
      (editAll actions fromDef).default.map (·.toSql) =
        (if defaultChangeTo name toDef ∈ actions then toDef.default
          else fromDef.default).map (·.toSql) := by
  induction actions using List.reverseRecOn with
  | nil => simp [editAll]
  | append_singleton actions a ih =>
    obtain ⟨type, default⟩ := ih fun b mem => own b (List.mem_append_left _ mem)
    have named' : (editAll actions fromDef).name = toDef.name :=
      (edit_all_keeps ColumnDef.name edit_column_name actions fromDef).trans named
    have type_left : typeChangeTo name toDef ≠ a → stringEnumValues (editAll actions fromDef).type =
        stringEnumValues (if typeChangeTo name toDef ∈ actions ++ [a] then toDef.type
          else fromDef.type) := fun other =>
      type.trans (congrArg stringEnumValues (if_congr (by simp [other]) rfl rfl))
    have default_left : defaultChangeTo name toDef ≠ a →
        (editAll actions fromDef).default.map (·.toSql) =
          (if defaultChangeTo name toDef ∈ actions ++ [a] then toDef.default
            else fromDef.default).map (·.toSql) := fun other =>
      default.trans (congrArg _ (if_congr (by simp [other]) rfl rfl))
    rw [edit_all_append]
    show stringEnumValues (editColumn a _).type = _ ∧ (editColumn a _).default.map _ = _
    by_cases about : ∃ f, columnEdit a = some (toDef.name, f)
    · obtain ⟨f, about⟩ := about
      have edited : editColumn a (editAll actions fromDef) = f (editAll actions fromDef) := by
        simp only [editColumn, about, named', ↓reduceIte]
      rw [edited]
      rcases column_edit_cases (own a (by simp) f about) with
        ⟨rfl, _⟩ | ⟨rfl, _⟩ | rfl | rfl | rfl <;> obtain ⟨_, rfl⟩ := Prod.mk.inj (Option.some.inj about)
      · exact ⟨by simp [typeChangeTo], default_left (by rintro ⟨⟩)⟩
      · exact ⟨(string_values_remap _ _).trans (type_left (by rintro ⟨⟩)), default_left (by rintro ⟨⟩)⟩
      · exact ⟨type_left (by rintro ⟨⟩), default_left (by rintro ⟨⟩)⟩
      · refine ⟨type_left (by rintro ⟨⟩), ?_⟩
        rw [if_pos (by simp [defaultChangeTo])]
        exact to_sql_again toDef.default
      · exact ⟨type_left (by rintro ⟨⟩), default_left (by rintro ⟨⟩)⟩
    · have same : editColumn a (editAll actions fromDef) = editAll actions fromDef := by
        unfold editColumn
        split
        · rename_i column f edit
          rw [if_neg fun here => about ⟨f, by rw [edit, ← here, named']⟩]
        · rfl
      rw [same]
      refine ⟨type_left ?_, default_left ?_⟩
      · rintro rfl
        exact about ⟨_, rfl⟩
      · rintro rfl
        exact about ⟨_, rfl⟩

theorem edit_all_other {actions : List MigrationAction} {c : ColumnDef}
    (other : ∀ a ∈ actions, ∀ f, columnEdit a ≠ some (c.name, f)) : editAll actions c = c := by
  induction actions with
  | nil => rfl
  | cons a actions ih =>
    obtain ⟨head, tail⟩ := List.forall_mem_cons.mp other
    have same : editColumn a c = c := by
      unfold editColumn
      split
      · rename_i column f edit
        rw [if_neg fun here => head f (by rw [edit, here])]
      · rfl
    exact (congrArg (editAll actions) same).trans (ih tail)

end Values

/-! One column in a prefix of the plan -/

theorem type_kept_values {name col : String} {fromDef toDef : ColumnDef}
    (kept : columnTypeChange name col fromDef toDef = none) :
    stringEnumValues fromDef.type = stringEnumValues toDef.type := by
  unfold columnTypeChange at kept
  dsimp only at kept
  split at kept
  · cases kept
  · rename_i same
    simp only [Bool.or_eq_true, Bool.and_eq_true, not_or, Bool.not_eq_true] at same
    obtain ⟨same, _⟩ := same
    unfold ColumnType.requiresMigration at same
    split at same
    · rename_i name₁ values₁ name₂ values₂ first second
      rw [first, second]
      cases values₁ <;> cases values₂ <;> simp_all [stringEnumValues, EnumValues.isInteger]
    · rw [show fromDef.type = toDef.type by simpa using same]

theorem type_change_cases (name : String) (fromDef toDef : ColumnDef) :
    columnTypeChange name toDef.name fromDef toDef = none ∨
      columnTypeChange name toDef.name fromDef toDef = some (typeChangeTo name toDef) := by
  cases change : columnTypeChange name toDef.name fromDef toDef with
  | none => exact .inl rfl
  | some a => exact .inr (congrArg some (type_change_key change))

theorem default_change_cases (name : String) (fromDef toDef : ColumnDef) :
    columnDefaultChange name toDef.name fromDef toDef = none ∧ keepsDefault fromDef toDef = true ∨
      columnDefaultChange name toDef.name fromDef toDef = some (defaultChangeTo name toDef) := by
  cases change : columnDefaultChange name toDef.name fromDef toDef with
  | none => exact .inl ⟨rfl, (default_change_none_iff fromDef toDef toDef.name).mp change⟩
  | some a => exact .inr (congrArg some (default_change_key change))

section Prefix
variable {name : String} {fromDef toDef : ColumnDef} {actions front back : List MigrationAction}

/-- In the order of the last pass, what a column holds at any time is one of its values. -/
theorem prefix_member (split : actions = front ++ back)
    (order : actions.filter (enumChangeKey · = some (name, toDef.name)) =
      if defaultFirst fromDef toDef then
        (columnDefaultChange name toDef.name fromDef toDef).toList ++
          (columnTypeChange name toDef.name fromDef toDef).toList
      else (columnTypeChange name toDef.name fromDef toDef).toList ++
        (columnDefaultChange name toDef.name fromDef toDef).toList)
    (old : DefaultMember fromDef.type fromDef.default)
    (new : DefaultMember toDef.type toDef.default) (between : BetweenMember fromDef toDef) :
    DefaultMember (if typeChangeTo name toDef ∈ front then toDef.type else fromDef.type)
      (if defaultChangeTo name toDef ∈ front then toDef.default else fromDef.default) := by
  have planned : ∀ a ∈ front, enumChangeKey a = some (name, toDef.name) →
      a ∈ (front ++ back).filter (enumChangeKey · = some (name, toDef.name)) := fun a mem own =>
    List.mem_filter.mpr ⟨List.mem_append_left _ mem, by simpa using own⟩
  rw [split] at order
  by_cases typed : typeChangeTo name toDef ∈ front
  · by_cases defaulted : defaultChangeTo name toDef ∈ front
    · rwa [if_pos typed, if_pos defaulted]
    · rw [if_pos typed, if_neg defaulted]
      by_cases flips : defaultFirst fromDef toDef = true
      · exfalso
        rw [if_pos flips] at order
        rcases default_change_cases name fromDef toDef with ⟨_, kept⟩ | change
        · simp [defaultFirst, kept] at flips
        rw [change] at order
        rcases type_change_cases name fromDef toDef with none | change'
        · have here := planned _ typed rfl
          rw [order, none] at here
          simp [typeChangeTo, defaultChangeTo] at here
        · rw [change'] at order
          exact defaulted (pair_kept_front order (by rintro ⟨⟩) typed)
      · rwa [BetweenMember, if_neg flips] at between
  · by_cases defaulted : defaultChangeTo name toDef ∈ front
    · rw [if_neg typed, if_pos defaulted]
      rcases type_change_cases name fromDef toDef with none | change
      · exact (member_congr (type_kept_values none) rfl).mpr new
      · by_cases flips : defaultFirst fromDef toDef = true
        · rwa [BetweenMember, if_pos flips] at between
        · exfalso
          rw [if_neg flips, change] at order
          rcases default_change_cases name fromDef toDef with ⟨none, _⟩ | change'
          · have here := planned _ defaulted rfl
            rw [order, none] at here
            simp [typeChangeTo, defaultChangeTo] at here
          · rw [change'] at order
            exact typed (pair_kept_front order (by rintro ⟨⟩) defaulted)
    · rwa [if_neg typed, if_neg defaulted]

end Prefix

/-! The columns of a table in a prefix of the plan -/

section Kept
variable {name : String} {t u r : TableDef} {edits front back : List MigrationAction}
  {added : List TableConstraint}
  (perm : edits.Perm (attributeEdits name t.columns u.columns))
  (prefixed : tableActions name t u edits added = front ++ back)
include perm prefixed

theorem front_edit {a : MigrationAction} (mem : a ∈ front) {column : String}
    {f : ColumnDef → ColumnDef} (about : columnEdit a = some (column, f)) :
    ∃ fromDef toDef, columnGet t.columns toDef.name = some fromDef ∧
      columnGet u.columns toDef.name = some toDef ∧ a ∈ columnEditsOf name fromDef toDef ∧
        toDef.name = column := by
  have listed : a ∈ tableActions name t u edits added := prefixed ▸ List.mem_append_left _ mem
  rcases table_action_cases perm listed with ⟨c, _, rfl⟩ | edit | ⟨c, _, rfl⟩ | ⟨o, n, rfl, _⟩ |
    ⟨c, _, rfl⟩ | ⟨c, _, rfl⟩
  · cases about
  · obtain ⟨fromDef, toDef, here, there, own⟩ := attribute_edit_of edit
    obtain ⟨g, about'⟩ := column_edit_of own
    rw [about'] at about
    exact ⟨fromDef, toDef, here, there, own, (Prod.mk.inj (Option.some.inj about)).1⟩
  all_goals cases about

theorem front_columns (regular : Regular t) (target_nodup : u.columnNames.Nodup)
    (ran : run editStep front t = some r) {c : ColumnDef} (mem : c ∈ r.columns) :
    (∃ toDef ∈ u.columns, toDef.name ∉ t.columnNames ∧ c.stripInline = toDef.stripInline) ∨
      ∃ fromDef ∈ t.columns, c.stripInline = (editAll front fromDef).stripInline := by
  have edits_only : ∀ a ∈ front, isEdit a = true ∧ ∀ table old new, a ≠ .renameColumn table old new := by
    intro a mem
    have listed : a ∈ tableActions name t u edits added := prefixed ▸ List.mem_append_left _ mem
    refine ⟨(table_action_edit perm listed).2, ?_⟩
    rintro table old new rfl
    rcases table_action_cases perm listed with ⟨_, _, same⟩ | edit | ⟨_, _, same⟩ | ⟨_, _, same, _⟩ |
      ⟨_, _, same⟩ | ⟨_, _, same⟩
    · cases same
    · obtain ⟨_, column, f, about⟩ := attribute_edit_cases edit
      cases about
    all_goals cases same
  rcases run_columns regular.nodup edits_only ran mem with own | ⟨early, table, column, fill, late,
    shape, strip⟩
  · exact .inr own
  · left
    have listed : .addColumn table column fill ∈ tableActions name t u edits added := by
      rw [prefixed, shape]
      simp
    have new : column ∈ addedColumns t u := by
      rcases table_action_cases perm listed with ⟨_, _, same⟩ | edit | ⟨_, here, same⟩ |
        ⟨_, _, same, _⟩ | ⟨_, _, same⟩ | ⟨_, _, same⟩
      · cases same
      · obtain ⟨_, column, f, about⟩ := attribute_edit_cases edit
        cases about
      · injection same with _ same
        exact same ▸ here
      all_goals cases same
    obtain ⟨toDef, there, fresh, rfl⟩ := (mem_added target_nodup).mp new
    refine ⟨toDef, there, fresh, ?_⟩
    rw [edit_all_other] at strip
    · exact strip
    · intro a here f about
      obtain ⟨fromDef, toDef', old, _, _, named⟩ :=
        front_edit perm prefixed (shape ▸ by simp [here]) about
      obtain ⟨old_mem, old_named⟩ := KeyedView.get_some old
      exact fresh (List.mem_map.mpr ⟨fromDef, old_mem, old_named.trans named⟩)

theorem front_values (regular : Regular t) (target_nodup : u.columnNames.Nodup)
    {fromDef : ColumnDef} (here : fromDef ∈ t.columns) :
    (fromDef.name ∉ u.columnNames ∧ editAll front fromDef = fromDef) ∨
      ∃ toDef ∈ u.columns, toDef.name = fromDef.name ∧
        (DefaultMember (editAll front fromDef).type (editAll front fromDef).default ↔
          DefaultMember (if typeChangeTo name toDef ∈ front then toDef.type else fromDef.type)
            (if defaultChangeTo name toDef ∈ front then toDef.default else fromDef.default)) := by
  by_cases stays : fromDef.name ∈ u.columnNames
  · obtain ⟨toDef, there, named⟩ := List.mem_map.mp stays
    refine .inr ⟨toDef, there, named, ?_⟩
    have own : ∀ a ∈ front, ∀ f, columnEdit a = some (toDef.name, f) →
        a ∈ columnEditsOf name fromDef toDef := by
      intro a mem f about
      obtain ⟨fromDef', toDef', old, new, own, same⟩ := front_edit perm prefixed mem about
      have old_self : columnGet t.columns toDef.name = some fromDef :=
        named ▸ KeyedView.get_of_nodup regular.nodup here
      have new_self : columnGet u.columns toDef.name = some toDef :=
        KeyedView.get_of_nodup target_nodup there
      rw [same] at old new
      obtain rfl := Option.some.inj (old.symm.trans old_self)
      obtain rfl := Option.some.inj (new.symm.trans new_self)
      exact own
    obtain ⟨values, texts⟩ := edit_all_values named.symm own
    exact member_congr values texts
  · refine .inl ⟨stays, edit_all_other ?_⟩
    intro a mem f about
    obtain ⟨fromDef', toDef', old, new, _, same⟩ := front_edit perm prefixed mem about
    obtain ⟨new_mem, new_named⟩ := KeyedView.get_some new
    exact stays (List.mem_map.mpr ⟨toDef', new_mem, same⟩)

end Kept

/-- A column of an intermediate schema: one that is dropped or new, or one on its way from
    the baseline to the target. -/
inductive CameFrom (baseline target : List TableDef) (front : List MigrationAction)
    (name : String) (c : ColumnDef) : Prop
  | dropped {t : TableDef} {fromDef : ColumnDef} (here : tableGet baseline name = some t)
      (old : fromDef ∈ t.columns) (left : ∀ u ∈ tableGet target name, fromDef.name ∉ u.columnNames)
      (same : c.stripInline = fromDef.stripInline)
  | added {u : TableDef} {toDef : ColumnDef} (there : tableGet target name = some u)
      (new : toDef ∈ u.columns) (fresh : ∀ t ∈ tableGet baseline name, toDef.name ∉ t.columnNames)
      (same : c.stripInline = toDef.stripInline)
  | moving {t u : TableDef} {fromDef toDef : ColumnDef} (here : tableGet baseline name = some t)
      (there : tableGet target name = some u) (old : fromDef ∈ t.columns) (new : toDef ∈ u.columns)
      (shared : fromDef.name = toDef.name) (named : c.name = toDef.name)
      (member : DefaultMember c.type c.default ↔
        DefaultMember (if typeChangeTo name toDef ∈ front then toDef.type else fromDef.type)
          (if defaultChangeTo name toDef ∈ front then toDef.default else fromDef.default))

section Plans
variable {baseline target : List TableDef} {plan : MigrationPlan}
  (nodup : TableNamesNodup baseline) (diffed : diffSchemas baseline target = .ok plan)

section Prefix
variable {front back : List MigrationAction} (split : plan.actions = front ++ back)
  {schema : Schema} (applied : applyActions baseline front = .ok schema)
include nodup diffed split applied

theorem prefix_columns {r : TableDef} (here : r ∈ schema) {c : ColumnDef} (mem : c ∈ r.columns) :
    CameFrom baseline target front r.name c := by
  obtain ⟨created, edits, planned⟩ := diff_schemas_planned diffed
  have all_local : ∀ a ∈ front, isLocal a = true := fun a mem =>
    planned.actions_local a (split ▸ List.mem_append_left _ mem)
  have ran := replay_table nodup all_local applied r.name
  rw [table_at_mem (apply_actions_nodup nodup applied) here, table_at_get nodup] at ran
  have parts := planned.actions_at r.name
  rw [split, actions_at_append] at parts
  have own : ∀ a, actionTable a = r.name → (a ∈ actionsAt actionTable r.name front ↔ a ∈ front) := by
    intro a named
    simp [actionsAt, named]
  generalize actionsAt actionTable r.name front = own_front at ran parts own
  generalize actionsAt actionTable r.name back = own_back at parts
  unfold tablePlan at parts
  cases there : tableGet baseline r.name with
  | none =>
    rw [there] at ran parts
    cases wanted : tableGet target r.name with
    | none =>
      rw [wanted] at parts
      obtain rfl := (List.append_eq_nil_iff.mp parts).1
      cases Option.some.inj ran
    | some u =>
      rw [wanted] at parts
      have regular := (table_get_regular planned.to_regular wanted).1
      have fresh : ∀ t ∈ tableGet baseline r.name, c.name ∉ t.columnNames := by
        intro t present
        cases there.symm.trans present
      rcases List.append_eq_singleton_iff.mp parts with ⟨rfl, _⟩ | ⟨rfl, _⟩
      · cases Option.some.inj ran
      · rw [run_cons, step_create_new regular] at ran
        obtain rfl := Option.some.inj (Option.some.inj ran)
        exact .added wanted mem fresh rfl
  | some t =>
    rw [there] at ran parts
    cases wanted : tableGet target r.name with
    | none =>
      rw [wanted] at parts
      rcases List.append_eq_singleton_iff.mp parts with ⟨rfl, _⟩ | ⟨rfl, _⟩
      · obtain rfl := Option.some.inj (Option.some.inj ran)
        exact .dropped there mem (fun u present => by cases wanted.symm.trans present) rfl
      · cases Option.some.inj ran
    | some u =>
      rw [wanted] at parts
      have regular := (table_get_regular planned.from_regular there).1
      have target_regular := (table_get_regular planned.to_regular wanted).1
      have perm : (edits r.name).Perm (attributeEdits r.name t.columns (normalized u).columns) :=
        planned.edits_perm r.name t u there wanted
      have edits_only : ∀ a ∈ own_front, isEdit a = true := fun a mem =>
        (table_action_edit perm (parts ▸ List.mem_append_left _ mem)).2
      rw [run_edits edits_only] at ran
      obtain ⟨r', steps, same⟩ := Option.map_eq_some_iff.mp ran
      obtain rfl := Option.some.inj same
      rcases front_columns perm parts.symm regular target_regular.nodup steps mem with
        ⟨toDef, new, fresh, strip⟩ | ⟨fromDef, old, strip⟩
      · refine .added wanted new (fun t' present => ?_) strip
        obtain rfl := Option.some.inj (there.symm.trans present)
        exact fresh
      · rcases front_values perm parts.symm regular target_regular.nodup old with
          ⟨left, same⟩ | ⟨toDef, new, named, member⟩
        · rw [same] at strip
          refine .dropped there old (fun u' present => ?_) strip
          obtain rfl := Option.some.inj (wanted.symm.trans present)
          exact left
        · obtain ⟨name, type, _, default, _⟩ := strip_inline_eq strip
          refine .moving there wanted old new named.symm ?_ ?_
          · exact name.trans ((edit_all_keeps ColumnDef.name edit_column_name _ _).trans named.symm)
          · rw [type, default, member]
            simp only [own (typeChangeTo r'.name toDef) rfl, own (defaultChangeTo r'.name toDef) rfl]

theorem prefix_defaults_members (old : DefaultsMembers baseline) (new : DefaultsMembers target)
    (between : BetweenMembers baseline target) : DefaultsMembers schema := by
  intro r here c mem
  cases prefix_columns nodup diffed split applied here mem with
  | dropped there own _ same =>
    obtain ⟨_, type, _, default, _⟩ := strip_inline_eq same
    rw [type, default]
    exact old _ (KeyedView.get_some there).1 _ own
  | added there own _ same =>
    obtain ⟨_, type, _, default, _⟩ := strip_inline_eq same
    rw [type, default]
    exact new _ (KeyedView.get_some there).1 _ own
  | moving there wanted own target_own same _ member =>
    obtain ⟨created, edits, planned⟩ := diff_schemas_planned diffed
    have regular := (table_get_regular planned.from_regular there).1
    have target_regular := (table_get_regular planned.to_regular wanted).1
    obtain ⟨t_mem, t_named⟩ := KeyedView.get_some there
    have order := plan_filter_key diffed there wanted
      (same ▸ KeyedView.get_of_nodup regular.nodup own)
      (KeyedView.get_of_nodup target_regular.nodup target_own)
    exact member.mpr (prefix_member split order (old _ t_mem _ own)
      (new _ (KeyedView.get_some wanted).1 _ target_own)
      (between _ t_mem _ (t_named ▸ wanted) _ own _ target_own same))

end Prefix

include nodup in
theorem changed_column {before : List MigrationAction} {a : MigrationAction} {schema : Schema}
    (applied : applyActions baseline (before ++ [a]) = .ok schema) {column : String}
    {f : ColumnDef → ColumnDef} (edit : columnEdit a = some (column, f)) :
    ∃ r ∈ schema, r.name = actionTable a ∧ ∃ c ∈ r.columns, c.name = column := by
  obtain ⟨s, start, ok⟩ := apply_actions_snoc.mp applied
  have is_edit : isEdit a = true ∧ isLocal a = true := by
    cases a <;> first | exact ⟨rfl, rfl⟩ | cases edit
  have onto : (∀ t, tableEdit a t = onColumn (actionTable a) column f t) ∧
      ∀ c, (f c).name = c.name := by
    cases a <;> first
      | (obtain ⟨rfl, rfl⟩ := Prod.mk.inj (Option.some.inj edit); exact ⟨fun _ => rfl, fun _ => rfl⟩)
      | cases edit
  obtain ⟨t', stepped, updated⟩ := local_step (apply_actions_nodup nodup start) is_edit.2 ok
  cases found : tableAt s (actionTable a) with
  | none =>
    rw [found] at stepped
    cases a <;> first | cases stepped | cases edit
  | some t =>
    rw [found, step_table_edit is_edit.1] at stepped
    obtain ⟨r, step, rfl⟩ := Option.map_eq_some_iff.mp stepped
    have there := congrFun updated (actionTable a)
    rw [Function.update_self] at there
    obtain ⟨r_mem, named⟩ := table_at_name there
    refine ⟨r, r_mem, named, ?_⟩
    unfold editStep at step
    rw [onto.1] at step
    have present : column ∈ t.columnNames := by
      by_contra absent
      simp [onColumn, absent, Outcome.fail, Outcome.toOption] at step
    have names : r.columns.map (·.name) = t.columns.map (·.name) := by
      obtain rfl := Outcome.to_option_state step
      simp only [onColumn, present, ↓reduceIte, Outcome.ok]
      exact mapped_first_keeps (fun c => c.name) onto.2 column t.columns
    exact List.mem_map.mp (names ▸ present)

include nodup diffed in
theorem first_change_member {t u : TableDef} {fromDef toDef : ColumnDef}
    (here : tableGet baseline t.name = some t) (there : tableGet target t.name = some u)
    (own : fromDef ∈ t.columns) (target_own : toDef ∈ u.columns)
    (shared : fromDef.name = toDef.name) {last : Schema}
    (applied : applyActions baseline plan.actions = .ok last)
    (stay : DefaultsStayMembers baseline plan.actions) {a : MigrationAction}
    (key : enumChangeKey a = some (t.name, toDef.name)) (planned : a ∈ plan.actions) :
    ∃ front back, plan.actions = front ++ a :: back ∧ a ∉ front ∧
      DefaultMember
        (if typeChangeTo t.name toDef ∈ front ++ [a] then toDef.type else fromDef.type)
        (if defaultChangeTo t.name toDef ∈ front ++ [a] then toDef.default else fromDef.default) := by
  obtain ⟨front, back, split, first⟩ := List.eq_append_cons_of_mem planned
  refine ⟨front, back, split, first, ?_⟩
  have whole : plan.actions = (front ++ [a]) ++ back := by rw [split, List.append_cons]
  obtain ⟨schema, now⟩ : ∃ schema, applyActions baseline (front ++ [a]) = .ok schema := by
    rw [whole, apply_actions_append] at applied
    cases start : applyActions baseline (front ++ [a]) with
    | error e => rw [start] at applied; cases applied
    | ok schema => exact ⟨schema, rfl⟩
  have members := stay front a back split (by simp [key]) schema now
  have edit : ∃ f, columnEdit a = some (toDef.name, f) := by
    cases a <;> first | (obtain ⟨_, rfl⟩ := Prod.mk.inj (Option.some.inj key); exact ⟨_, rfl⟩) | cases key
  obtain ⟨f, edit⟩ := edit
  obtain ⟨r, r_mem, named, c, c_mem, c_named⟩ := changed_column nodup now edit
  rw [enum_change_key_table key] at named
  have came := prefix_columns nodup diffed whole now r_mem c_mem
  rw [named] at came
  obtain ⟨created, edits, planned⟩ := diff_schemas_planned diffed
  have regular := (table_get_regular planned.from_regular here).1
  have target_regular := (table_get_regular planned.to_regular there).1
  cases came with
  | dropped here' old left same =>
    obtain rfl := Option.some.inj (here.symm.trans here')
    refine absurd (List.mem_map.mpr ⟨toDef, target_own, ?_⟩) (left u there)
    exact c_named.symm.trans (strip_inline_eq same).1
  | added there' new fresh same =>
    refine absurd (List.mem_map.mpr ⟨fromDef, own, ?_⟩) (fresh t here)
    exact shared.trans (c_named.symm.trans (strip_inline_eq same).1)
  | moving here' there' old new shared' named' member =>
    obtain rfl := Option.some.inj (here.symm.trans here')
    obtain rfl := Option.some.inj (there.symm.trans there')
    obtain rfl := List.inj_on_of_nodup_map target_regular.nodup new target_own
      (named'.symm.trans c_named)
    obtain rfl := List.inj_on_of_nodup_map regular.nodup old own (shared'.trans shared.symm)
    exact member.mp (members r r_mem c c_mem)

theorem kept_between {fromDef toDef : ColumnDef} (values : stringEnumValues fromDef.type =
    stringEnumValues toDef.type) (old : DefaultMember fromDef.type fromDef.default)
    (new : DefaultMember toDef.type toDef.default) : BetweenMember fromDef toDef := by
  unfold BetweenMember
  split
  · exact (member_congr values rfl).mpr new
  · exact (member_congr values rfl).mp old

include nodup diffed in
theorem between_members {last : Schema} (applied : applyActions baseline plan.actions = .ok last)
    (old : DefaultsMembers baseline) (new : DefaultsMembers target)
    (stay : DefaultsStayMembers baseline plan.actions) : BetweenMembers baseline target := by
  intro t t_mem u there fromDef own toDef target_own shared
  have here : tableGet baseline t.name = some t := by
    rw [← table_at_get nodup, table_at_mem nodup t_mem]
  obtain ⟨created, edits, planned⟩ := diff_schemas_planned diffed
  have regular := (table_get_regular planned.from_regular here).1
  have target_regular := (table_get_regular planned.to_regular there).1
  have order := plan_filter_key diffed here there
    (shared ▸ KeyedView.get_of_nodup regular.nodup own)
    (KeyedView.get_of_nodup target_regular.nodup target_own)
  have listed : ∀ a ∈ plan.actions.filter (enumChangeKey · = some (t.name, toDef.name)),
      a ∈ plan.actions := fun a => List.mem_of_mem_filter
  have run := fun a => first_change_member nodup diffed here there own target_own shared applied stay
    (a := a)
  rcases type_change_cases t.name fromDef toDef with kept | typed
  · exact kept_between (type_kept_values kept) (old t t_mem fromDef own)
      (new u (KeyedView.get_some there).1 toDef target_own)
  · rw [typed] at order
    by_cases flips : defaultFirst fromDef toDef = true
    · rcases default_change_cases t.name fromDef toDef with ⟨_, kept⟩ | defaulted
      · simp [defaultFirst, kept] at flips
      rw [if_pos flips, defaulted] at order
      obtain ⟨front, back, split, first, member⟩ := run (defaultChangeTo t.name toDef) rfl
        (listed _ (by rw [order]; simp))
      have untyped : typeChangeTo t.name toDef ∉ front ++ [defaultChangeTo t.name toDef] := by
        intro mem
        rw [split] at order
        rcases List.mem_append.mp mem with before | here
        · exact first (pair_kept_front order (by rintro ⟨⟩) before)
        · cases List.mem_singleton.mp here
      rwa [if_neg untyped, if_pos (by simp), ← (if_pos flips : BetweenMember fromDef toDef = _)]
        at member
    · rw [if_neg flips] at order
      obtain ⟨front, back, split, first, member⟩ := run (typeChangeTo t.name toDef) rfl
        (listed _ (by rw [order]; simp))
      have undefaulted : defaultChangeTo t.name toDef ∉ front ++ [typeChangeTo t.name toDef] := by
        intro mem
        rcases List.mem_append.mp mem with before | here
        · rcases default_change_cases t.name fromDef toDef with ⟨none, _⟩ | defaulted
          · have kept : defaultChangeTo t.name toDef ∈
                plan.actions.filter (enumChangeKey · = some (t.name, toDef.name)) :=
              List.mem_filter.mpr ⟨split ▸ List.mem_append_left _ before, by
                simp [defaultChangeTo, enumChangeKey]⟩
            rw [order, none] at kept
            simp [typeChangeTo, defaultChangeTo] at kept
          · rw [split, defaulted] at order
            exact first (pair_kept_front order (by rintro ⟨⟩) before)
        · cases List.mem_singleton.mp here
      rwa [if_pos (by simp), if_neg undefaulted, ← (if_neg flips : BetweenMember fromDef toDef = _)]
        at member

end Plans

/-- In the plan between two schemas whose enum defaults are values of their types, they are so
    after each change of a type or a default, if and only if this holds of what every column
    that stays has between its two changes. -/
theorem enum_defaults_stay_iff {baseline target : List TableDef} {plan : MigrationPlan}
    (nodup : TableNamesNodup baseline) (diffed : diffSchemas baseline target = .ok plan)
    (old : DefaultsMembers baseline) (new : DefaultsMembers target) :
    (BetweenMembers baseline target → DefaultsStayMembers baseline plan.actions) ∧
      ∀ last, applyActions baseline plan.actions = .ok last →
        DefaultsStayMembers baseline plan.actions → BetweenMembers baseline target := by
  refine ⟨?_, fun last applied => between_members nodup diffed applied old new⟩
  intro between before a after split _ schema applied
  have whole : plan.actions = (before ++ [a]) ++ after := by rw [split, List.append_cons]
  exact prefix_defaults_members nodup diffed whole applied old new between

/-! An order's status -/

def orderStatus (values : List String) (default : String) : List TableDef :=
  [⟨"order", none, [{ ColumnDef.new "status" (.complex (.enum "status" (.string values))) false with
    default := some (.string default) }], []⟩]

def statusChange (newValues : List String) : MigrationAction :=
  .modifyColumnType "order" "status" (.complex (.enum "status" (.string newValues))) none none none

def statusDefault (newDefault : String) : MigrationAction :=
  .modifyColumnDefault "order" "status" (some newDefault) none

set_option maxRecDepth 100000 in
theorem replaced_status_plan : diffSchemas (orderStatus ["new", "sent"] "'new'")
    (orderStatus ["sent", "paid"] "'paid'") = .ok ⟨"", none, none, 0,
      [statusDefault "'paid'", statusChange ["sent", "paid"]]⟩ := by
  decide

/-- The old default's value goes and the new default's value comes: neither order will do. -/
theorem replaced_status_strays : ¬ ∀ baseline target plan, TableNamesNodup baseline →
    DefaultsMembers baseline → DefaultsMembers target →
      diffSchemas baseline target = .ok plan → DefaultsStayMembers baseline plan.actions := by
  intro always
  have stay := always _ _ _ (by decide) (by decide) (by decide) replaced_status_plan
  have members := stay [] (statusDefault "'paid'") [statusChange ["sent", "paid"]] rfl rfl
    (orderStatus ["new", "sent"] "'paid'") (by decide)
  revert members
  decide

set_option maxRecDepth 100000 in
theorem shrunk_status_plan : diffSchemas (orderStatus ["new", "sent"] "'new'")
    (orderStatus ["sent"] "'sent'") = .ok ⟨"", none, none, 0,
      [statusDefault "'sent'", statusChange ["sent"]]⟩ := by
  decide

theorem shrunk_status_stays : DefaultsStayMembers (orderStatus ["new", "sent"] "'new'")
    [statusDefault "'sent'", statusChange ["sent"]] :=
  (enum_defaults_stay_iff (by decide) shrunk_status_plan (by decide) (by decide)).1 (by decide)

end Vespertide
