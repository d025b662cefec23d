import Vespertide.ColumnInvariants
import Vespertide.PlanSteps

/-!
Enum defaults while a plan is applied. A column that stays gets its new type and
its new default by two actions, and between the two it holds one of the old and
one of the new: which one comes first is decided by the value that the old
default names.
-/
namespace Vespertide
open Components Rearrange

/-- The value that a default names, unless it is empty, an expression or a keyword. -/
def extractEnumValue (value : String) : Option String :=
  let trimmed := Text.trim value.toList
  if trimmed = [] then none
  else if '(' ∈ trimmed ∨ ')' ∈ trimmed ∨ Text.eqIgnoreAsciiCase trimmed "null".toList ∨
      Text.eqIgnoreAsciiCase trimmed "current_timestamp".toList ∨
      Text.eqIgnoreAsciiCase trimmed "now".toList then none
  else if ((trimmed.head? = some '\'' ∧ trimmed.getLast? = some '\'') ∨
      (trimmed.head? = some '"' ∧ trimmed.getLast? = some '"')) ∧ 2 ≤ trimmed.length then
    some (String.ofList trimmed.tail.dropLast)
  else some (String.ofList trimmed)

def stringEnumValues : ColumnType → Option (List String)
  | .complex (.enum _ (.string values)) => some values
  | _ => none

/-- The literal default of a string enum is one of the values of the type. -/
def DefaultMember (type : ColumnType) (default : Option DefaultValue) : Prop :=
  ∀ values ∈ stringEnumValues type, ∀ d ∈ default, ∀ value ∈ extractEnumValue d.toSql,
    value ∈ values

def DefaultsMembers (schema : Schema) : Prop :=
  ∀ t ∈ schema, ∀ c ∈ t.columns, DefaultMember c.type c.default

instance (type : ColumnType) (default : Option DefaultValue) :
    Decidable (DefaultMember type default) :=
  inferInstanceAs (Decidable (∀ values ∈ stringEnumValues type, _))

instance (schema : Schema) : Decidable (DefaultsMembers schema) :=
  inferInstanceAs (Decidable (∀ t ∈ schema, _))

def enumChangeKey : MigrationAction → Option (String × String)
  | .modifyColumnType table column _ _ _ _ => some (table, column)
  | .modifyColumnDefault table column _ _ => some (table, column)
  | _ => none

/-- After every change of a type or a default, each string enum holds one of its values. -/
def DefaultsStayMembers (baseline : Schema) (actions : List MigrationAction) : Prop :=
  ∀ before a after, actions = before ++ a :: after → (enumChangeKey a).isSome →
    ∀ schema, applyActions baseline (before ++ [a]) = .ok schema → DefaultsMembers schema

def defaultFirst (fromDef toDef : ColumnDef) : Bool :=
  ¬ keepsDefault fromDef toDef ∧ fromDef.default.any fun d =>
    stringEnumValueRemoved fromDef.type toDef.type (extractUnquotedDefault d.toSql)

def BetweenMember (fromDef toDef : ColumnDef) : Prop :=
  if defaultFirst fromDef toDef then DefaultMember fromDef.type toDef.default
  else DefaultMember toDef.type fromDef.default

def BetweenMembers (fromSchema toSchema : List TableDef) : Prop :=
  ∀ t ∈ fromSchema, ∀ u ∈ tableGet toSchema t.name, ∀ fromDef ∈ t.columns, ∀ toDef ∈ u.columns,
    fromDef.name = toDef.name → BetweenMember fromDef toDef

instance (fromDef toDef : ColumnDef) : Decidable (BetweenMember fromDef toDef) :=
  inferInstanceAs (Decidable (if defaultFirst fromDef toDef
    then DefaultMember fromDef.type toDef.default else DefaultMember toDef.type fromDef.default))

instance (fromSchema toSchema : List TableDef) : Decidable (BetweenMembers fromSchema toSchema) :=
  inferInstanceAs (Decidable (∀ t ∈ fromSchema, _))

/-! The two changes of a column in a plan -/

section Keys
variable {name col : String} {a : MigrationAction}

theorem enum_change_key_table {key : String × String} (changes : enumChangeKey a = some key) :
    actionTable a = key.1 := by
  cases a <;> first | (obtain rfl := Option.some.inj changes; rfl) | cases changes

theorem type_change_key {fromDef toDef : ColumnDef}
    (change : columnTypeChange name col fromDef toDef = some a) :
    a = .modifyColumnType name col toDef.type none none none := by
  unfold columnTypeChange at change
  dsimp only at change
  split at change
  · exact (Option.some.inj change).symm
  · cases change

theorem default_change_key {fromDef toDef : ColumnDef}
    (change : columnDefaultChange name col fromDef toDef = some a) :
    a = .modifyColumnDefault name col (toDef.default.map (·.toSql)) none := by
  unfold columnDefaultChange at change
  split at change
  · cases change
  · dsimp only at change
    split at change
    · exact (Option.some.inj change).symm
    · cases change

theorem filter_keyed {g : String → Option MigrationAction}
    (own : ∀ k a, g k = some a → enumChangeKey a = some (name, k)) {ks : List String}
    (nodup : ks.Nodup) : (ks.filterMap g).filter (enumChangeKey · = some (name, col)) =
      if col ∈ ks then (g col).toList else [] := by
  induction ks with
  | nil => rfl
  | cons k ks ih =>
    obtain ⟨fresh, rest⟩ := List.nodup_cons.mp nodup
    have tail := ih rest
    cases here : g k with
    | none =>
      rw [List.filterMap_cons_none here, tail]
      by_cases same : col = k
      · subst same
        simp [fresh, here]
      · simp [same]
    | some a =>
      rw [List.filterMap_cons_some here]
      by_cases same : col = k
      · subst same
        rw [List.filter_cons_of_pos (by simp [own col a here]), tail, if_neg fresh]
        simp [here]
      · rw [List.filter_cons_of_neg (by simp [own k a here, Ne.symm same]), tail]
        simp [same]

variable {fromCols toCols : List ColumnDef}

theorem filter_shared {f : String → ColumnDef → ColumnDef → Option MigrationAction}
    (own : ∀ k fromDef toDef a, f k fromDef toDef = some a → enumChangeKey a = some (name, k)) :
    (sharedColumns fromCols toCols f).filter (enumChangeKey · = some (name, col)) =
      ((columnGet fromCols col).bind fun fromDef =>
        (columnGet toCols col).bind (f col fromDef ·)).toList := by
  unfold sharedColumns
  rw [filter_keyed ?_ (KeyedView.keys_nodup _ _)]
  · cases there : columnGet toCols col with
    | none => simp
    | some toDef =>
      have listed : col ∈ columnKeys toCols :=
        KeyedView.mem_keys.mpr ⟨toDef, KeyedView.get_some there⟩
      rw [if_pos listed]
      cases columnGet fromCols col <;> rfl
  · intro k a change
    split at change
    · exact own k _ _ a change
    · cases change

theorem filter_unchanged {f : String → ColumnDef → ColumnDef → Option MigrationAction}
    (other : ∀ k fromDef toDef a, f k fromDef toDef = some a → enumChangeKey a = none) :
    (sharedColumns fromCols toCols f).filter (enumChangeKey · = some (name, col)) = [] := by
  rw [List.filter_eq_nil_iff]
  intro a mem
  obtain ⟨fromDef, toDef, _, _, change⟩ := mem_shared.mp mem
  simp [other _ _ _ a change]

/-- As they are computed, the new type of a column comes before its new default. -/
theorem filter_attribute_edits :
    (attributeEdits name fromCols toCols).filter (enumChangeKey · = some (name, col)) =
      ((columnGet fromCols col).bind fun fromDef => (columnGet toCols col).bind fun toDef =>
        columnTypeChange name col fromDef toDef).toList ++
      ((columnGet fromCols col).bind fun fromDef => (columnGet toCols col).bind fun toDef =>
        columnDefaultChange name col fromDef toDef).toList := by
  have types : (sharedColumns fromCols toCols (columnTypeChange name)).filter
      (enumChangeKey · = some (name, col)) = _ := filter_shared fun k fromDef toDef a change => by
    rw [type_change_key change, enumChangeKey]
  have defaults : (sharedColumns fromCols toCols (columnDefaultChange name)).filter
      (enumChangeKey · = some (name, col)) = _ := filter_shared fun k fromDef toDef a change => by
    rw [default_change_key change, enumChangeKey]
  have remappings : (sharedColumns fromCols toCols (integerEnumRemapping name)).filter
      (enumChangeKey · = some (name, col)) = [] := filter_unchanged fun k fromDef toDef a change => by
    unfold integerEnumRemapping at change
    dsimp only at change
    split at change
    · cases change
    · obtain rfl := Option.some.inj change
      rfl
  have nullability : (sharedColumns fromCols toCols (columnNullabilityChange name)).filter
      (enumChangeKey · = some (name, col)) = [] := filter_unchanged fun k fromDef toDef a change => by
    unfold columnNullabilityChange at change
    split at change
    · obtain rfl := Option.some.inj change
      rfl
    · cases change
  have comments : (sharedColumns fromCols toCols (columnCommentChange name)).filter
      (enumChangeKey · = some (name, col)) = [] := filter_unchanged fun k fromDef toDef a change => by
    unfold columnCommentChange at change
    split at change
    · obtain rfl := Option.some.inj change
      rfl
    · cases change
  simp only [attributeEdits, diffColumnTypes, diffIntegerEnumRemappings, diffColumnNullability,
    diffColumnDefaults, diffColumnComments, List.filter_append, types, remappings, nullability,
    defaults, comments, List.append_nil]

end Keys

theorem filter_actions_at (name col : String) (actions : List MigrationAction) :
    (actionsAt actionTable name actions).filter (enumChangeKey · = some (name, col)) =
      actions.filter (enumChangeKey · = some (name, col)) := by
  rw [actionsAt, List.filter_filter]
  refine List.filter_congr fun a _ => ?_
  by_cases own : enumChangeKey a = some (name, col)
  · simp [own, enum_change_key_table own]
  · simp [own]

section Tables
variable {name col : String} {t u : TableDef} {edits : List MigrationAction}
  {added : List TableConstraint}

theorem filter_table_actions :
    (tableActions name t u edits added).filter (enumChangeKey · = some (name, col)) =
      edits.filter (enumChangeKey · = some (name, col)) := by
  have others : ∀ actions : List MigrationAction, (∀ a ∈ actions, enumChangeKey a = none) →
      actions.filter (enumChangeKey · = some (name, col)) = [] := by
    intro actions other
    rw [List.filter_eq_nil_iff]
    intro a mem
    simp [other a mem]
  simp only [tableActions, columnActions, List.filter_append]
  rw [others ((droppedColumns t u).map _) (by simp [enumChangeKey]),
    others ((addedColumns t u).map _) (by simp [enumChangeKey]),
    others ((removals name t u).map _) (by simp [enumChangeKey]),
    others (added.map _) (by simp [enumChangeKey]), others (replacements name t u)]
  · simp
  · intro a mem
    obtain ⟨old, new, rfl, _⟩ := replacements_replace a mem
    rfl

end Tables

section Planned
variable {fromSchema toSchema created : List TableDef} {edits : String → List MigrationAction}
  {actions : List MigrationAction}
  (planned : Planned fromSchema toSchema created edits actions) {name col : String} {t u : TableDef}
  (here : tableGet fromSchema name = some t) (there : tableGet toSchema name = some u)
include planned here there

theorem Planned.filter_key : actions.filter (enumChangeKey · = some (name, col)) =
    (edits name).filter (enumChangeKey · = some (name, col)) := by
  rw [← filter_actions_at, planned.actions_at, tablePlan, here, there]
  exact filter_table_actions

end Planned

/-! The last pass of the plan -/

theorem mem_type_changes {actions : List MigrationAction} {key : String × String} {i : Nat}
    {newType : ColumnType} : (key, i, newType) ∈ typeChanges actions ↔
      ∃ fillWith narrowing timezone, actions[i]? =
        some (.modifyColumnType key.1 key.2 newType fillWith narrowing timezone) := by
  simp only [typeChanges, List.mem_filterMap, Prod.exists, List.mem_zipIdx_iff_getElem?]
  constructor
  · intro mem
    obtain ⟨a, j, slot, shape⟩ := mem
    cases a with
    | modifyColumnType table column type fillWith narrowing timezone =>
      simp only [Option.some.injEq, Prod.mk.injEq] at shape
      obtain ⟨rfl, rfl, rfl⟩ := shape
      exact ⟨fillWith, narrowing, timezone, slot⟩
    | _ => cases shape
  · intro slot
    obtain ⟨fillWith, narrowing, timezone, slot⟩ := slot
    exact ⟨_, i, slot, rfl⟩

theorem mem_default_changes {actions : List MigrationAction} {key : String × String} {i : Nat} :
    (key, i) ∈ defaultChanges actions ↔ ∃ newDefault backfill, actions[i]? =
      some (.modifyColumnDefault key.1 key.2 newDefault backfill) := by
  simp only [defaultChanges, List.mem_filterMap, Prod.exists, List.mem_zipIdx_iff_getElem?]
  constructor
  · intro mem
    obtain ⟨a, j, slot, shape⟩ := mem
    cases a with
    | modifyColumnDefault table column newDefault backfill =>
      simp only [Option.some.injEq, Prod.mk.injEq] at shape
      obtain ⟨rfl, rfl⟩ := shape
      exact ⟨newDefault, backfill, slot⟩
    | _ => cases shape
  · intro slot
    obtain ⟨newDefault, backfill, slot⟩ := slot
    exact ⟨_, i, slot, rfl⟩

section Swaps
variable {actions : List MigrationAction} {fromTables : List TableDef}

theorem swap_slots {change : (String × String) × Nat × ColumnType}
    (listed : change ∈ typeChanges actions) {swap : Nat × Nat}
    (swaps : enumDefaultSwap actions fromTables change = some swap) :
    swap.1 = change.2.1 ∧ swap.1 < swap.2 ∧ ∃ x y, actions[swap.1]? = some x ∧
      actions[swap.2]? = some y ∧ enumChangeKey x = some change.1 ∧
      enumChangeKey y = some change.1 := by
  obtain ⟨⟨table, column⟩, typeIdx, newType⟩ := change
  obtain ⟨fillWith, narrowing, timezone, first⟩ := mem_type_changes.mp listed
  simp only [enumDefaultSwap] at swaps
  split at swaps
  · rename_i key defaultIdx fromTable found _
    obtain ⟨present, same⟩ := KeyedView.get_some found
    obtain ⟨newDefault, backfill, second⟩ := mem_default_changes.mp present
    have key_eq : key = (table, column) := by simpa using same
    subst key_eq
    split at swaps
    · split at swaps
      · split at swaps
        · rename_i removed
          obtain rfl := Option.some.inj swaps
          exact ⟨rfl, removed.2, _, _, first, second, rfl, rfl⟩
        · cases swaps
      · cases swaps
    · cases swaps
  · cases swaps

theorem map_filter_map {α β γ : Type} {f : α → Option β} {g : β → γ} {h : α → γ} {xs : List α}
    (same : ∀ x ∈ xs, ∀ y ∈ f x, g y = h x) :
    (xs.filterMap f).map g = (xs.filter fun x => (f x).isSome).map h := by
  induction xs with
  | nil => rfl
  | cons x xs ih =>
    obtain ⟨head, tail⟩ := List.forall_mem_cons.mp same
    cases here : f x with
    | none => simp [here, ih tail]
    | some y => simp [here, ih tail, head y here]

def SwappedKey (actions : List MigrationAction) (fromTables : List TableDef)
    (key : String × String) : Prop :=
  ∃ change ∈ KeyedView.entries (fun c => toLex c.1) (typeChanges actions),
    (enumDefaultSwap actions fromTables change).isSome ∧ change.1 = key

theorem filter_sort_enum {key : String × String}
    (only_two : (actions.filter (enumChangeKey · = some key)).length ≤ 2) :
    (SwappedKey actions fromTables key →
      (sortEnumDefaultDependencies actions fromTables).filter (enumChangeKey · = some key) =
        (actions.filter (enumChangeKey · = some key)).reverse) ∧
    (¬ SwappedKey actions fromTables key →
      (sortEnumDefaultDependencies actions fromTables).filter (enumChangeKey · = some key) =
        actions.filter (enumChangeKey · = some key)) := by
  have slots : ∀ change ∈ KeyedView.entries (fun c => toLex c.1) (typeChanges actions),
      ∀ swap ∈ enumDefaultSwap actions fromTables change, swap.1 < swap.2 ∧
        ∃ x y, actions[swap.1]? = some x ∧ actions[swap.2]? = some y ∧
          enumChangeKey x = some change.1 ∧ enumChangeKey y = some change.1 := by
    intro change listed swap swaps
    exact (swap_slots (KeyedView.get_some (KeyedView.mem_entries.mp listed)).1 swaps).2
  have keys := map_filter_map (g := fun s : Nat × Nat => actions[s.1]?.bind enumChangeKey)
    (h := fun change : (String × String) × Nat × ColumnType => some change.1) (by
      intro change listed swap swaps
      obtain ⟨_, x, _, first, _, own, _⟩ := slots change listed swap swaps
      rw [first, Option.bind_some, own])
  have distinct : (((KeyedView.entries (fun c => toLex c.1) (typeChanges actions)).filterMap
      (enumDefaultSwap actions fromTables)).map fun s => actions[s.1]?.bind enumChangeKey).Nodup := by
    rw [keys]
    have unique := KeyedView.entries_key_nodup (fun c => toLex c.1) (typeChanges actions)
    refine List.Nodup.sublist (List.filter_sublist.map _) ?_
    have firsts : ((KeyedView.entries (fun c => toLex c.1) (typeChanges actions)).map
        (·.1)).Nodup := by
      apply List.Nodup.of_map toLex
      rwa [List.map_map]
    have again := firsts.map (Option.some_injective (String × String))
    rwa [List.map_map] at again
  have turned := filter_swaps (by
    intro swap mem
    obtain ⟨change, listed, swaps⟩ := List.mem_filterMap.mp mem
    obtain ⟨apart, x, y, first, second, own, own'⟩ := slots change listed swap swaps
    exact ⟨apart, x, y, first, second, own.trans own'.symm, by simp [own]⟩) distinct only_two
  have swapped : some key ∈ (((KeyedView.entries (fun c => toLex c.1)
      (typeChanges actions)).filterMap (enumDefaultSwap actions fromTables)).map
        fun s => actions[s.1]?.bind enumChangeKey) ↔ SwappedKey actions fromTables key := by
    rw [keys]
    simp [SwappedKey, and_assoc]
  unfold sortEnumDefaultDependencies
  rw [turned]
  constructor
  · exact fun own => if_pos (swapped.mpr own)
  · exact fun other => if_neg fun own => other (swapped.mp own)

theorem filter_sort_single {key : String × String}
    (single : (actions.filter (enumChangeKey · = some key)).length ≤ 1) :
    (sortEnumDefaultDependencies actions fromTables).filter (enumChangeKey · = some key) =
      actions.filter (enumChangeKey · = some key) := by
  have moved := @filter_sort_enum actions fromTables key (by omega)
  by_cases swapped : SwappedKey actions fromTables key
  · rw [moved.1 swapped]
    generalize actions.filter (enumChangeKey · = some key) = own at single
    cases own with
    | nil => rfl
    | cons a rest =>
      obtain rfl : rest = [] := by simpa using single
      rfl
  · exact moved.2 swapped

section Pair
variable {name col : String} {fromDef toDef : ColumnDef} {t : TableDef}
  {newDefault : Option String}
  (pair : actions.filter (enumChangeKey · = some (name, col)) =
    [.modifyColumnType name col toDef.type none none none,
      .modifyColumnDefault name col newDefault none])
  (here : tableGet fromTables name = some t)
  (found : t.columns.find? (·.name = col) = some fromDef)
include pair here found

theorem pair_swap : ∃ i j, i < j ∧
    KeyedView.get (fun c => toLex c.1) (typeChanges actions) (toLex (name, col)) =
      some ((name, col), i, toDef.type) ∧
    enumDefaultSwap actions fromTables ((name, col), i, toDef.type) =
      fromDef.default.bind fun d =>
        if stringEnumValueRemoved fromDef.type toDef.type (extractUnquotedDefault d.toSql)
        then some (i, j) else none := by
  have slot : ∀ a, a ∈ actions → enumChangeKey a = some (name, col) →
      a = .modifyColumnType name col toDef.type none none none ∨
        a = .modifyColumnDefault name col newDefault none := by
    intro a mem own
    have kept : a ∈ actions.filter (enumChangeKey · = some (name, col)) :=
      List.mem_filter.mpr ⟨mem, by simpa using own⟩
    rw [pair] at kept
    simpa using kept
  have members : ∀ a ∈ actions.filter (enumChangeKey · = some (name, col)), a ∈ actions :=
    fun a => List.mem_of_mem_filter
  rw [pair] at members
  obtain ⟨typeIdx, type_at⟩ := List.getElem?_of_mem (members _ List.mem_cons_self)
  obtain ⟨defaultIdx, default_at⟩ := List.getElem?_of_mem
    (members _ (List.mem_cons_of_mem _ List.mem_cons_self))
  have typed : ((name, col), typeIdx, toDef.type) ∈ typeChanges actions :=
    mem_type_changes.mpr ⟨_, _, _, type_at⟩
  have defaulted : ((name, col), defaultIdx) ∈ defaultChanges actions :=
    mem_default_changes.mpr ⟨_, _, default_at⟩
  have some_type : (KeyedView.get (fun c => toLex c.1) (typeChanges actions)
      (toLex (name, col))).isSome := KeyedView.get_isSome_iff.mpr ⟨_, typed, rfl⟩
  have some_default : (KeyedView.get (fun c => toLex c.1) (defaultChanges actions)
      (toLex (name, col))).isSome := KeyedView.get_isSome_iff.mpr ⟨_, defaulted, rfl⟩
  obtain ⟨⟨key, i, newType⟩, get_type⟩ := Option.isSome_iff_exists.mp some_type
  obtain ⟨⟨key', j⟩, get_default⟩ := Option.isSome_iff_exists.mp some_default
  obtain ⟨type_listed, type_key⟩ := KeyedView.get_some get_type
  obtain ⟨default_listed, default_key⟩ := KeyedView.get_some get_default
  obtain rfl : key = (name, col) := toLex.injective type_key
  obtain rfl : key' = (name, col) := toLex.injective default_key
  obtain ⟨fillWith, narrowing, timezone, first⟩ := mem_type_changes.mp type_listed
  obtain ⟨value, backfill, second⟩ := mem_default_changes.mp default_listed
  have first_is := (slot _ (List.mem_of_getElem? first) rfl).resolve_right nofun
  have second_is := (slot _ (List.mem_of_getElem? second) rfl).resolve_left nofun
  rw [first_is] at first
  rw [second_is] at second
  injection first_is with _ _ same_type
  subst same_type
  have apart : i < j := pair_order pair first second nofun
  refine ⟨i, j, apart, get_type, ?_⟩
  simp only [enumDefaultSwap, get_default, here, found]
  cases fromDef.default with
  | none => rfl
  | some d => simp [apart]

/-- Where both change, the last pass takes the default first when it removes the value that the
    old default names. -/
theorem swapped_key_iff : SwappedKey actions fromTables (name, col) ↔
    (fromDef.default.any fun d =>
      stringEnumValueRemoved fromDef.type toDef.type (extractUnquotedDefault d.toSql)) = true := by
  obtain ⟨i, j, apart, get_type, swap⟩ := pair_swap pair here found
  have swaps : (enumDefaultSwap actions fromTables ((name, col), i, toDef.type)).isSome ↔
      (fromDef.default.any fun d =>
        stringEnumValueRemoved fromDef.type toDef.type (extractUnquotedDefault d.toSql)) = true := by
    rw [swap]
    cases fromDef.default with
    | none => simp
    | some d => simp
  rw [← swaps]
  constructor
  · intro swapped
    obtain ⟨change, listed, some_swap, own⟩ := swapped
    have again := KeyedView.mem_entries.mp listed
    rw [own, get_type] at again
    obtain rfl := Option.some.inj again
    exact some_swap
  · exact fun some_swap => ⟨_, KeyedView.mem_entries.mpr get_type, some_swap, rfl⟩

end Pair

end Swaps

section Plans
variable {fromSchema toSchema : List TableDef} {plan : MigrationPlan}
  (diffed : diffSchemas fromSchema toSchema = .ok plan) {name col : String} {t u : TableDef}
  {fromDef toDef : ColumnDef}

theorem find_column {columns : List ColumnDef} (nodup : (columns.map (·.name)).Nodup)
    (found : columnGet columns col = some fromDef) :
    columns.find? (·.name = col) = some fromDef := by
  obtain ⟨mem, named⟩ := KeyedView.get_some found
  have there : (columns.find? (·.name = col)).isSome := by
    rw [List.find?_isSome]
    exact ⟨fromDef, mem, by simpa using named⟩
  obtain ⟨c, first⟩ := Option.isSome_iff_exists.mp there
  have same : c.name = col := by simpa using List.find?_some first
  have own := List.inj_on_of_nodup_map nodup (List.mem_of_find?_eq_some first) mem
    (same.trans named.symm)
  rw [first, own]

include diffed in
theorem plan_filter_key (here : tableGet fromSchema name = some t)
    (there : tableGet toSchema name = some u) (old : columnGet t.columns col = some fromDef)
    (new : columnGet u.columns col = some toDef) :
    plan.actions.filter (enumChangeKey · = some (name, col)) =
      if defaultFirst fromDef toDef then
        (columnDefaultChange name col fromDef toDef).toList ++
          (columnTypeChange name col fromDef toDef).toList
      else (columnTypeChange name col fromDef toDef).toList ++
        (columnDefaultChange name col fromDef toDef).toList := by
  obtain ⟨created, sorted, planned, last⟩ := diff_schemas_sorted diffed
  have computed : sorted.filter (enumChangeKey · = some (name, col)) =
      (columnTypeChange name col fromDef toDef).toList ++
        (columnDefaultChange name col fromDef toDef).toList := by
    rw [planned.filter_key here there, computedEdits, here, there]
    simp only [filter_attribute_edits, old, new, Option.bind_some]
  have found : tableGet (fromSchema.map normalized) name = some (normalized t) := by
    rw [table_get_normalized, here, Option.map_some]
  have first := find_column (table_get_regular planned.from_regular here).1.nodup old
  rw [last]
  cases typed : columnTypeChange name col fromDef toDef with
  | none =>
    rw [typed] at computed
    rw [filter_sort_single, computed]
    · simp
    · rw [computed]
      cases columnDefaultChange name col fromDef toDef <;> simp
  | some a =>
    cases defaulted : columnDefaultChange name col fromDef toDef with
    | none =>
      rw [typed, defaulted] at computed
      rw [filter_sort_single, computed]
      · simp
      · simp [computed]
    | some b =>
      rw [typed, defaulted, type_change_key typed, default_change_key defaulted] at computed
      have changes : keepsDefault fromDef toDef = false := by
        rw [← Bool.not_eq_true, ← default_change_none_iff fromDef toDef col, defaulted]
        rintro ⟨⟩
      have swapped := swapped_key_iff computed found first
      have moved := @filter_sort_enum sorted (fromSchema.map normalized) (name, col)
        (by rw [computed]; simp)
      rw [type_change_key typed, default_change_key defaulted]
      by_cases flips : SwappedKey sorted (fromSchema.map normalized) (name, col)
      · rw [moved.1 flips, computed]
        simp [defaultFirst, changes, swapped.mp flips]
      · rw [moved.2 flips, computed]
        have stays := mt swapped.mpr flips
        simp only [Bool.not_eq_true] at stays
        simp [defaultFirst, stays]

end Plans

end Vespertide
