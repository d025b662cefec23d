import Vespertide.ActionSteps
import Vespertide.Convergence

/-!
The values of integer enums over a history of targets. A remapping is computed
from the replayed baseline to the new target. The baseline never learns of a
variant that a target adds, and keeps every variant that a target gives up.
-/
namespace Vespertide
open Components

/-! A history of plans -/

def u32Max : Nat := 2 ^ 32 - 1

def planNextMigrationWithBaseline (current : List TableDef) (appliedPlans : List MigrationPlan)
    (baseline : List TableDef) : Except PlannerError MigrationPlan := do
  let plan ← diffSchemas baseline current
  let latest := appliedPlans.foldl (fun latest p => max latest p.version) 0
  return { plan with version := min (latest + 1) u32Max }

def planNextMigration (current : List TableDef) (appliedPlans : List MigrationPlan) :
    Except PlannerError MigrationPlan := do
  let baseline ← schemaFromPlans appliedPlans
  planNextMigrationWithBaseline current appliedPlans baseline

/-- A plan without actions is not recorded. -/
def recordPlan (plans : List MigrationPlan) (plan : MigrationPlan) : List MigrationPlan :=
  if plan.actions = [] then plans else plans ++ [plan]

def planHistory (targets : List (List TableDef)) : Except PlannerError (List MigrationPlan) :=
  targets.foldlM (fun plans target => do
    let plan ← planNextMigration target plans
    return recordPlan plans plan) []

theorem plan_next_migration_ok {current : List TableDef} {plans : List MigrationPlan}
    {plan : MigrationPlan} (next : planNextMigration current plans = .ok plan) :
    ∃ baseline diffed, schemaFromPlans plans = .ok baseline ∧
      diffSchemas baseline current = .ok diffed ∧ plan.actions = diffed.actions := by
  unfold planNextMigration planNextMigrationWithBaseline at next
  cases replayed : schemaFromPlans plans with
  | error e =>
    rw [replayed] at next
    cases next
  | ok baseline =>
    rw [replayed] at next
    cases diffed : diffSchemas baseline current with
    | error e =>
      simp only [diffed, bind, Except.bind] at next
      cases next
    | ok plan' =>
      simp only [diffed, bind, Except.bind, pure, Except.pure, Except.ok.injEq] at next
      exact ⟨baseline, plan', rfl, diffed, next ▸ rfl⟩

theorem plan_history_append (targets : List (List TableDef)) (target : List TableDef)
    {plans : List MigrationPlan} (planned : planHistory (targets ++ [target]) = .ok plans) :
    ∃ earlier plan, planHistory targets = .ok earlier ∧
      planNextMigration target earlier = .ok plan ∧ plans = recordPlan earlier plan := by
  unfold planHistory at planned ⊢
  rw [List.foldlM_append] at planned
  cases before : targets.foldlM (fun plans target => do
      let plan ← planNextMigration target plans
      return recordPlan plans plan) ([] : List MigrationPlan) with
  | error e =>
    rw [before] at planned
    cases planned
  | ok earlier =>
    rw [before] at planned
    cases next : planNextMigration target earlier with
    | error e =>
      simp only [List.foldlM_cons, next, bind, Except.bind] at planned
      cases planned
    | ok plan =>
      simp only [List.foldlM_cons, List.foldlM_nil, next, bind, Except.bind, pure, Except.pure,
        Except.ok.injEq] at planned
      exact ⟨earlier, plan, rfl, next, planned.symm⟩

theorem schema_from_recorded {plans : List MigrationPlan} {plan : MigrationPlan}
    {baseline schema : List TableDef} (replayed : schemaFromPlans plans = .ok baseline)
    (after : schemaFromPlans (recordPlan plans plan) = .ok schema) :
    applyActions baseline plan.actions = .ok schema := by
  unfold recordPlan at after
  split at after
  · rename_i nothing
    rw [nothing]
    exact replayed.symm.trans after
  · rw [schema_from_plans_actions] at replayed after
    rw [List.flatMap_append, List.flatMap_singleton, apply_actions_append, replayed] at after
    exact after

/-! The values of a column's enum -/

def ColumnType.integerItems : ColumnType → Option (List NumValue)
  | .complex (.enum _ (.integer items)) => some items
  | _ => none

def enumItems (schema : List TableDef) (table column : String) : Option (List NumValue) :=
  (tableGet schema table).bind fun t =>
    (columnGet t.columns column).bind fun c => c.type.integerItems

/-- Every variant that the new target renumbers is covered by a remapping of the plan. -/
def Restamped (previous target : List TableDef) (actions : List MigrationAction) : Prop :=
  ∀ table column old new, enumItems previous table column = some old →
    enumItems target table column = some new → ∀ variant value value',
      valueByName old variant = some value → valueByName new variant = some value' →
        value ≠ value' → ∃ mapping, .remapEnumValues table column mapping ∈ actions ∧
          (value, value') ∈ mapping

/-- Of the variants with this value that the target renumbers, the last one gets the new value. -/
def LastRenumbered (items new : List NumValue) (value value' : Int) : Prop :=
  ∃ before v after, items = before ++ v :: after ∧
    v.value = value ∧ valueByName new v.name = some value' ∧ value ≠ value' ∧
      ∀ w ∈ after, w.value = value → ∀ other, valueByName new w.name = some other → other = value

/-- The baseline still has each variant that the new target renumbers under its old
    value, and no later variant of that value is renumbered otherwise. -/
def BaselineRenumbers (baseline previous target : List TableDef) : Prop :=
  ∀ table column old new, enumItems previous table column = some old →
    enumItems target table column = some new → ∀ variant value value',
      valueByName old variant = some value → valueByName new variant = some value' →
        value ≠ value' → ∃ items, enumItems baseline table column = some items ∧ items ≠ new ∧
          LastRenumbered items new value value'

theorem last_changed_iff {items new : List NumValue} {value value' : Int} :
    KeyedView.get Prod.fst (changedValues items new) value = some (value, value') ↔
      LastRenumbered items new value value' := by
  rw [KeyedView.get_eq_some_iff]
  simp only [true_and]
  constructor
  · rintro ⟨before, after, split, others⟩
    obtain ⟨front, rest, rfl, _, rest_split⟩ := List.filterMap_eq_append_iff.mp split
    obtain ⟨skipped, v, tail, rfl, _, changed, rfl⟩ := List.filterMap_eq_cons_iff.mp rest_split
    have own : (value, value') ∈ changedValues [v] new := by
      simp only [changedValues, List.filterMap_cons, changed, List.mem_cons, true_or]
    obtain ⟨_, here, valued, found, differs⟩ := mem_changed_values.mp own
    obtain rfl := List.mem_singleton.mp here
    refine ⟨front ++ skipped, _, tail, by simp, valued, found, fun same => differs same.symm, ?_⟩
    intro w mem same other found'
    by_contra renumbered
    exact others (value, other) (mem_changed_values.mpr ⟨w, mem, same, found', renumbered⟩) rfl
  · rintro ⟨before, v, after, rfl, rfl, found, differs, others⟩
    refine ⟨changedValues before new, changedValues after new, ?_, ?_⟩
    · simp only [changedValues, List.filterMap_append, List.filterMap_cons, found]
      rw [if_pos (Ne.symm differs)]
    · intro p mem same
      obtain ⟨w, here, valued, found', renumbered⟩ := mem_changed_values.mp mem
      rw [same] at valued renumbered
      exact renumbered (others w here valued p.2 found')

theorem mem_mapping_iff {fromName toName : String} {items new : List NumValue}
    {value value' : Int} :
    (value, value') ∈ computeIntegerEnumRemapping (.complex (.enum fromName (.integer items)))
        (.complex (.enum toName (.integer new))) ↔
      items ≠ new ∧ LastRenumbered items new value value' := by
  by_cases same : items = new
  · simp [computeIntegerEnumRemapping, same]
  · rw [mapping_eq same, collectMapping, KeyedView.mem_entries]
    simp only [same, ne_eq, not_false_eq_true, true_and]
    exact last_changed_iff

/-! What a plan remaps -/

theorem integer_items_some {ty : ColumnType} {items : List NumValue}
    (declared : ty.integerItems = some items) : ∃ name, ty = .complex (.enum name (.integer items)) := by
  unfold ColumnType.integerItems at declared
  split at declared
  · rename_i name own
    exact ⟨name, by rw [Option.some.inj declared]⟩
  · cases declared

theorem enum_items_some {schema : List TableDef} {table column : String} {items : List NumValue}
    (found : enumItems schema table column = some items) : ∃ t c name,
      tableGet schema table = some t ∧ columnGet t.columns column = some c ∧
        c.type = .complex (.enum name (.integer items)) := by
  unfold enumItems at found
  obtain ⟨t, here, inside⟩ := Option.bind_eq_some_iff.mp found
  obtain ⟨c, there, declared⟩ := Option.bind_eq_some_iff.mp inside
  obtain ⟨name, typed⟩ := integer_items_some declared
  exact ⟨t, c, name, here, there, typed⟩

theorem mapping_not_integer {ty : ColumnType} (other : ty.integerItems = none) (toType : ColumnType) :
    computeIntegerEnumRemapping ty toType = [] := by
  unfold ColumnType.integerItems at other
  unfold computeIntegerEnumRemapping
  split at other
  · cases other
  · rename_i not_integer
    split
    · exact absurd rfl (not_integer _ _)
    · rfl

section Remapped
variable {fromSchema toSchema created : List TableDef} {edits : String → List MigrationAction}
  {actions : List MigrationAction} (planned : Planned fromSchema toSchema created edits actions)
include planned

theorem Planned.remapped_iff {table column : String} {mapping : List (Int × Int)} :
    .remapEnumValues table column mapping ∈ actions ↔ ∃ t u fromDef toDef,
      tableGet fromSchema table = some t ∧ tableGet toSchema table = some u ∧
      columnGet t.columns column = some fromDef ∧ columnGet u.columns column = some toDef ∧
      mapping = computeIntegerEnumRemapping fromDef.type toDef.type ∧ mapping ≠ [] := by
  rw [planned.attribute_edit_iff rfl]
  simp only [actionTable, MigrationAction.tableName, Option.getD_some]
  constructor
  · rintro ⟨t, u, fromDef, toDef, here, there, from_here, to_here, edit⟩
    rcases column_edit_cases edit with ⟨shape, _⟩ | ⟨shape, some_mapped⟩ | shape | shape | shape
    · cases shape
    · cases shape
      exact ⟨t, u, fromDef, toDef, here, there, from_here, to_here, rfl, some_mapped⟩
    · cases shape
    · cases shape
    · cases shape
  · rintro ⟨t, u, fromDef, toDef, here, there, from_here, to_here, rfl, some_mapped⟩
    obtain rfl := (KeyedView.get_some to_here).2
    refine ⟨t, u, fromDef, toDef, here, there, from_here, to_here, ?_⟩
    simp [columnEditsOf, List.reduceOption_mem_iff, integerEnumRemapping, some_mapped]

theorem Planned.restamped_iff (previous : List TableDef) :
    Restamped previous toSchema actions ↔ BaselineRenumbers fromSchema previous toSchema := by
  unfold Restamped BaselineRenumbers
  refine forall₄_congr fun table column old new => forall₃_congr fun _ there variant =>
    forall₄_congr fun value value' _ _ => forall_congr' fun _ => ?_
  obtain ⟨u, toDef, toName, u_found, to_found, to_type⟩ := enum_items_some there
  constructor
  · rintro ⟨mapping, remaps, mem⟩
    obtain ⟨t, u', fromDef, toDef', here, there', from_here, to_here, rfl, _⟩ :=
      planned.remapped_iff.mp remaps
    obtain rfl := Option.some.inj (u_found.symm.trans there')
    obtain rfl := Option.some.inj (to_found.symm.trans to_here)
    cases declared : fromDef.type.integerItems with
    | none =>
      rw [mapping_not_integer declared] at mem
      cases mem
    | some items =>
      obtain ⟨fromName, from_type⟩ := integer_items_some declared
      rw [from_type, to_type] at mem
      exact ⟨items, by simp [enumItems, here, from_here, declared], mem_mapping_iff.mp mem⟩
  · rintro ⟨items, found, renumbered⟩
    obtain ⟨t, fromDef, fromName, here, from_here, from_type⟩ := enum_items_some found
    have mem := (@mem_mapping_iff fromName toName _ _ _ _).mpr renumbered
    rw [← from_type, ← to_type] at mem
    exact ⟨_, planned.remapped_iff.mpr ⟨t, u, fromDef, toDef, here, u_found, from_here, to_found, rfl,
      List.ne_nil_of_mem mem⟩, mem⟩

end Remapped

/-! Targets that never add a variant -/

def Distinct (items : List NumValue) : Prop :=
  (items.map (·.name)).Nodup ∧ (items.map (·.value)).Nodup

def DistinctEnums (schema : List TableDef) : Prop :=
  ∀ table column items, enumItems schema table column = some items → Distinct items

def GainsNoVariant (previous target : List TableDef) : Prop :=
  ∀ table column old new, enumItems previous table column = some old →
    enumItems target table column = some new → ∀ v ∈ new, v.name ∈ old.map (·.name)

/-- The baseline's enum has the variants of the target, with the values they have there. -/
structure Tracks (items target : List NumValue) : Prop where
  values : ∀ v ∈ items, ∀ value, valueByName target v.name = some value → v.value = value
  names : ∀ v ∈ target, v.name ∈ items.map (·.name)

theorem value_by_name_some {items : List NumValue} {name : String} {value : Int}
    (found : valueByName items name = some value) : ∃ v ∈ items, v.name = name ∧ v.value = value := by
  obtain ⟨v, here, rfl⟩ := Option.map_eq_some_iff.mp found
  obtain ⟨mem, named⟩ := KeyedView.get_some here
  exact ⟨v, mem, named, rfl⟩

theorem value_by_name_mem {items : List NumValue} (distinct : Distinct items) {v : NumValue}
    (mem : v ∈ items) : valueByName items v.name = some v.value := by
  simp [valueByName, KeyedView.get_of_nodup distinct.1 mem]

theorem tracks_self {items : List NumValue} (distinct : Distinct items) : Tracks items items := by
  constructor
  · intro v mem value found
    rw [value_by_name_mem distinct mem] at found
    exact Option.some.inj found
  · intro v mem
    exact List.mem_map_of_mem mem

section Tracking
variable {items old new : List NumValue} (tracks : Tracks items old) (distinct : Distinct old)
  (gained : ∀ v ∈ new, v.name ∈ old.map (·.name))
include tracks distinct gained

/-- Two variants of one value that the new target still has are the same variant. -/
theorem tracked_variant {v w : NumValue} (here : v ∈ items) (there : w ∈ items)
    (same : v.value = w.value) {a b : Int} (found : valueByName new v.name = some a)
    (found' : valueByName new w.name = some b) : a = b := by
  have known : ∀ x ∈ items, ∀ c, valueByName new x.name = some c →
      ∃ y ∈ old, y.name = x.name ∧ y.value = x.value := by
    intro x mem c kept
    obtain ⟨z, in_new, named, _⟩ := value_by_name_some kept
    obtain ⟨y, in_old, named'⟩ := List.mem_map.mp (gained z in_new)
    refine ⟨y, in_old, named'.trans named, ?_⟩
    have valued := value_by_name_mem distinct in_old
    rw [named', named] at valued
    exact (tracks.values x mem _ valued).symm
  obtain ⟨y, in_old, named, valued⟩ := known v here a found
  obtain ⟨y', in_old', named', valued'⟩ := known w there b found'
  have together : y = y' := by
    apply List.inj_on_of_nodup_map distinct.2 in_old in_old'
    exact valued.trans (same.trans valued'.symm)
  rw [← named, together, named'] at found
  exact Option.some.inj (found.symm.trans found')

theorem tracked_renumbered {variant : String} {value value' : Int}
    (was : valueByName old variant = some value) (becomes : valueByName new variant = some value')
    (differs : value ≠ value') : items ≠ new ∧ LastRenumbered items new value value' := by
  obtain ⟨v, in_old, rfl, rfl⟩ := value_by_name_some was
  obtain ⟨w, in_items, named⟩ := List.mem_map.mp (tracks.names v in_old)
  have valued : w.value = v.value := tracks.values w in_items _ (by rw [named, was])
  have changed : (v.value, value') ∈ changedValues items new :=
    mem_changed_values.mpr ⟨w, in_items, valued, by rw [named, becomes], Ne.symm differs⟩
  constructor
  · rintro rfl
    obtain ⟨x, in_new, same, own⟩ := value_by_name_some becomes
    rw [← own, tracks.values x in_new _ (by rw [same, was])] at differs
    exact differs rfl
  · rw [← last_changed_iff]
    have some_pair : (KeyedView.get Prod.fst (changedValues items new) v.value).isSome :=
      KeyedView.get_isSome_iff.mpr ⟨_, changed, rfl⟩
    obtain ⟨p, found⟩ := Option.isSome_iff_exists.mp some_pair
    obtain ⟨mem, first⟩ := KeyedView.get_some found
    obtain ⟨x, here, own, becomes', _⟩ := mem_changed_values.mp mem
    have same : p.2 = value' := by
      apply tracked_variant tracks distinct gained here in_items _ becomes' (by rw [named, becomes])
      rw [own, valued]
      exact first
    rw [found, ← same]
    exact congrArg some (Prod.ext first rfl)

theorem tracked_remapped {fromName toName : String} (distinct_new : Distinct new) :
    Tracks (remapItems (computeIntegerEnumRemapping (.complex (.enum fromName (.integer items)))
      (.complex (.enum toName (.integer new)))) items) new := by
  by_cases same : items = new
  · have nothing : computeIntegerEnumRemapping (.complex (.enum fromName (.integer items)))
        (.complex (.enum toName (.integer new))) = [] := mapping_nil_iff.mpr (.inl same)
    have kept : remapItems [] items = items := by simp [remapItems]
    rw [nothing, kept, same]
    exact tracks_self distinct_new
  · rw [remap_items_eq same]
    have agree := remapped_iff.mpr fun v here w there same a found b found' =>
      tracked_variant tracks distinct gained here there same found found'
    constructor
    · intro v mem value found
      obtain ⟨w, here, rfl⟩ := List.mem_map.mp mem
      exact (agree w here value found).symm
    · intro v mem
      obtain ⟨y, in_old, named⟩ := List.mem_map.mp (gained v mem)
      obtain ⟨w, in_items, named'⟩ := List.mem_map.mp (tracks.names y in_old)
      rw [List.map_map]
      exact List.mem_map.mpr ⟨w, in_items, named'.trans named⟩

end Tracking

/-- Column by column, the baseline tracks the target that was planned last. -/
def TracksSchema (baseline previous : List TableDef) : Prop :=
  ∀ table column,
    Option.Rel Tracks (enumItems baseline table column) (enumItems previous table column)

theorem both_integer {fromType toType : ColumnType}
    (kept : fromType.requiresMigration toType = false) :
    fromType.integerItems = none ↔ toType.integerItems = none := by
  unfold ColumnType.requiresMigration at kept
  split at kept
  · rename_i _ values1 _ values2
    cases values1 <;> cases values2 <;>
      simp_all [ColumnType.integerItems, EnumValues.isInteger]
  · obtain rfl : fromType = toType := by simpa using kept
    exact Iff.rfl

theorem edited_items {fromDef toDef : ColumnDef} {previous : Option (List NumValue)}
    (tracks : Option.Rel Tracks fromDef.type.integerItems previous)
    (distinct : ∀ old ∈ previous, Distinct old)
    (distinct_new : ∀ new ∈ toDef.type.integerItems, Distinct new)
    (gained : ∀ old ∈ previous, ∀ new ∈ toDef.type.integerItems, ∀ v ∈ new,
      v.name ∈ old.map (·.name)) :
    Option.Rel Tracks (editedColumn fromDef toDef).type.integerItems toDef.type.integerItems := by
  simp only [editedColumn]
  split
  · cases declared : toDef.type.integerItems with
    | none => exact .none
    | some new => exact .some (tracks_self (distinct_new new declared))
  · rename_i kept
    have same := both_integer (Bool.not_eq_true _ ▸ (not_or.mp kept).1)
    cases declared' : toDef.type.integerItems with
    | none =>
      have declared := same.mpr declared'
      rw [mapping_not_integer declared, remap_type_nil, declared]
      exact .none
    | some new =>
      cases declared : fromDef.type.integerItems with
      | none => simp [same.mp declared] at declared'
      | some items =>
        obtain ⟨fromName, from_type⟩ := integer_items_some declared
        obtain ⟨toName, to_type⟩ := integer_items_some declared'
        rw [declared] at tracks
        rw [from_type, to_type]
        cases tracks with
        | some tracked =>
          refine .some (tracked_remapped tracked (distinct _ rfl) ?_ (distinct_new new declared'))
          exact gained _ rfl new declared'

section Step
variable {fromSchema toSchema created : List TableDef} {edits : String → List MigrationAction}
  {actions : List MigrationAction} (planned : Planned fromSchema toSchema created edits actions)
  (nodup : TableNamesNodup fromSchema) {s' : List TableDef}
  (applied : applyActions fromSchema actions = .ok s')
include planned nodup applied

theorem Planned.tracks_step {previous : List TableDef} (tracks : TracksSchema fromSchema previous)
    (distinct : DistinctEnums previous) (distinct_new : DistinctEnums toSchema)
    (gains : GainsNoVariant previous toSchema) : TracksSchema s' toSchema := by
  intro table column
  cases there : tableGet toSchema table with
  | none =>
    simp only [enumItems, planned.left_absent nodup applied there, there]
    exact .none
  | some u =>
    have own : ∀ items, enumItems toSchema table column = some items →
        Tracks items items := fun items found =>
      tracks_self (distinct_new table column items found)
    cases here : tableGet fromSchema table with
    | none =>
      have left := planned.left_created nodup applied here there
      have same : enumItems s' table column = enumItems toSchema table column := by
        simp only [enumItems, left, there, Option.bind_some, normalized_columns]
      rw [same]
      cases declared : enumItems toSchema table column with
      | none => exact .none
      | some items => exact .some (own items declared)
    | some t =>
      obtain ⟨regular, rfl⟩ := table_get_regular planned.from_regular here
      have u_nodup := (table_get_regular planned.to_regular there).1.nodup
      obtain ⟨r, found, left⟩ := planned.left_kept nodup applied here there
      cases to_here : columnGet u.columns column with
      | none =>
        have gone := left_column_absent left u_nodup to_here
        simp only [enumItems, found, there, Option.bind_some, gone, to_here]
        exact .none
      | some toDef =>
        have wanted : enumItems toSchema t.name column = toDef.type.integerItems := by
          simp only [enumItems, there, Option.bind_some, to_here]
        cases from_here : columnGet t.columns column with
        | none =>
          obtain ⟨d, got, typed⟩ := left_column_added left regular u_nodup from_here to_here
          have same : enumItems s' t.name column = toDef.type.integerItems := by
            simp only [enumItems, found, Option.bind_some, got, typed]
          rw [same, wanted]
          cases declared : toDef.type.integerItems with
          | none => exact .none
          | some items => exact .some (own items (wanted.trans declared))
        | some fromDef =>
          obtain ⟨d, got, typed⟩ := left_column_kept left regular u_nodup from_here to_here
          have same : enumItems s' t.name column = (editedColumn fromDef toDef).type.integerItems := by
            simp only [enumItems, found, Option.bind_some, got, typed]
          have was : enumItems fromSchema t.name column = fromDef.type.integerItems := by
            simp only [enumItems, here, Option.bind_some, from_here]
          rw [same, wanted]
          apply edited_items (was ▸ tracks t.name column)
          · intro old held
            exact distinct t.name column old held
          · intro new held
            exact distinct_new t.name column new (wanted.trans held)
          · intro old held new held'
            exact gains t.name column old new held (wanted.trans held')

end Step

/-! Whole histories -/

theorem planned_tracks {plans : List MigrationPlan} {plan : MigrationPlan}
    {baseline previous target s' : List TableDef} (replayed : schemaFromPlans plans = .ok baseline)
    (next : planNextMigration target plans = .ok plan)
    (after : schemaFromPlans (recordPlan plans plan) = .ok s')
    (tracks : TracksSchema baseline previous) (distinct : DistinctEnums previous)
    (distinct_new : DistinctEnums target) (gains : GainsNoVariant previous target) :
    TracksSchema s' target := by
  obtain ⟨own, diffed, replayed', diff, same⟩ := plan_next_migration_ok next
  obtain rfl := Except.ok.inj (replayed.symm.trans replayed')
  obtain ⟨created, edits, planned⟩ := diff_schemas_planned diff
  have applied := schema_from_recorded replayed after
  rw [same] at applied
  exact planned.tracks_step (schema_from_plans_nodup replayed) applied tracks distinct distinct_new
    gains

theorem history_tracks {before : List (List TableDef)} {target baseline : List TableDef}
    {plans : List MigrationPlan} (planned : planHistory (before ++ [target]) = .ok plans)
    (replayed : schemaFromPlans plans = .ok baseline)
    (distinct : ∀ schema ∈ before ++ [target], DistinctEnums schema)
    (gains : (before ++ [target]).IsChain GainsNoVariant) : TracksSchema baseline target := by
  induction before using List.reverseRecOn generalizing target baseline plans with
  | nil =>
    obtain ⟨earlier, plan, start, next, rfl⟩ := plan_history_append [] target planned
    obtain rfl := Except.ok.inj start
    have nothing : TracksSchema [] [] := fun _ _ => .none
    have no_enum : ∀ table column, enumItems [] table column = none := fun _ _ => rfl
    apply planned_tracks rfl next replayed nothing
    · intro table column items found
      cases found
    · exact distinct target (by simp)
    · intro table column old new found
      cases found
  | append_singleton before previous ih =>
    obtain ⟨earlier, plan, start, next, rfl⟩ := plan_history_append _ target planned
    obtain ⟨own, diffed, replayed', _⟩ := plan_next_migration_ok next
    have chained := List.isChain_append.mp gains
    have known : ∀ schema ∈ before ++ [previous], DistinctEnums schema := fun schema mem =>
      distinct schema (List.mem_append_left _ mem)
    apply planned_tracks replayed' next replayed (ih start replayed' known chained.1)
    · exact known previous (by simp)
    · exact distinct target (by simp)
    · exact chained.2.2 previous (by simp) target (by simp)

/-- Two consecutive targets of a history, the baseline replayed before the second one
    and the plan it gets. -/
def HistoryStep (targets : List (List TableDef)) (previous target baseline : List TableDef)
    (plan : MigrationPlan) : Prop :=
  ∃ before after plans, targets = before ++ previous :: target :: after ∧
    planHistory (before ++ [previous]) = .ok plans ∧ schemaFromPlans plans = .ok baseline ∧
      planNextMigration target plans = .ok plan

/-- A step of a history re-stamps what its target renumbers exactly when the baseline still
    tells these variants by their old values; so does every step where no target adds a variant. -/
theorem history_restamped_iff (targets : List (List TableDef)) :
    (∀ previous target baseline plan, HistoryStep targets previous target baseline plan →
      (Restamped previous target plan.actions ↔ BaselineRenumbers baseline previous target)) ∧
    ((∀ schema ∈ targets, DistinctEnums schema) → targets.IsChain GainsNoVariant →
      ∀ previous target baseline plan, HistoryStep targets previous target baseline plan →
        Restamped previous target plan.actions) := by
  have exact_step : ∀ previous target baseline plan,
      HistoryStep targets previous target baseline plan →
      (Restamped previous target plan.actions ↔ BaselineRenumbers baseline previous target) := by
    rintro previous target baseline plan ⟨_, _, plans, _, _, replayed, next⟩
    obtain ⟨own, diffed, replayed', diff, same⟩ := plan_next_migration_ok next
    obtain rfl := Except.ok.inj (replayed.symm.trans replayed')
    obtain ⟨created, edits, planned⟩ := diff_schemas_planned diff
    rw [same]
    exact planned.restamped_iff previous
  refine ⟨exact_step, ?_⟩
  intro distinct gains previous target baseline plan step
  rw [exact_step previous target baseline plan step]
  obtain ⟨before, after, plans, rfl, planned, replayed, _⟩ := step
  have split : before ++ previous :: target :: after = (before ++ [previous]) ++ target :: after := by
    simp
  rw [split] at distinct gains
  have chained := List.isChain_append.mp gains
  have tracks := history_tracks planned replayed
    (fun schema mem => distinct schema (List.mem_append_left _ mem)) chained.1
  intro table column old new was becomes variant value value' old_value new_value differs
  have tracked := tracks table column
  rw [was] at tracked
  cases declared : enumItems baseline table column with
  | none =>
    rw [declared] at tracked
    cases tracked
  | some items =>
    rw [declared] at tracked
    cases tracked with
    | some tracked =>
      refine ⟨items, rfl, tracked_renumbered tracked ?_ ?_ old_value new_value differs⟩
      · exact distinct previous (by simp) table column old was
      · exact chained.2.2 previous (by simp) target (by simp) table column old new was becomes

/-! A level that is added and then renumbered -/

def taskSchema (levels : List NumValue) : List TableDef :=
  [⟨"task", none, [.new "level" (.complex (.enum "level" (.integer levels))) false], []⟩]

/-- The variant "high" is added without a migration, so renumbering it remaps nothing. -/
theorem added_level_not_restamped : ¬ ∀ targets previous target baseline plan,
    HistoryStep targets previous target baseline plan → Restamped previous target plan.actions := by
  intro restamped
  obtain ⟨mapping, remaps, _⟩ := restamped
    [taskSchema [⟨"low", 1⟩], taskSchema [⟨"low", 1⟩, ⟨"high", 2⟩],
      taskSchema [⟨"low", 1⟩, ⟨"high", 3⟩]] _ _ (taskSchema [⟨"low", 1⟩]) ⟨"", none, none, 2, []⟩
    ⟨[taskSchema [⟨"low", 1⟩]], [], [creationPlan (taskSchema [⟨"low", 1⟩])], rfl, by decide,
      by decide, by decide⟩
    "task" "level" _ _ rfl rfl "high" 2 3 rfl rfl (by decide)
  cases remaps

theorem task_items {levels items : List NumValue} {table column : String}
    (found : enumItems (taskSchema levels) table column = some items) : items = levels := by
  obtain ⟨t, c, name, here, there, typed⟩ := enum_items_some found
  obtain rfl := List.mem_singleton.mp (KeyedView.get_some here).1
  obtain rfl := List.mem_singleton.mp (KeyedView.get_some there).1
  cases typed
  rfl

theorem raised_level_restamped :
    Restamped (taskSchema [⟨"low", 1⟩, ⟨"high", 2⟩]) (taskSchema [⟨"low", 1⟩, ⟨"high", 3⟩])
      [.remapEnumValues "task" "level" [(2, 3)]] := by
  apply (history_restamped_iff [taskSchema [⟨"low", 1⟩, ⟨"high", 2⟩],
    taskSchema [⟨"low", 1⟩, ⟨"high", 3⟩]]).2 _ _ _ _ (taskSchema [⟨"low", 1⟩, ⟨"high", 2⟩])
    ⟨"", none, none, 2, [.remapEnumValues "task" "level" [(2, 3)]]⟩
  · exact ⟨[], [], [creationPlan (taskSchema [⟨"low", 1⟩, ⟨"high", 2⟩])], rfl, by decide, by decide,
      by decide⟩
  · intro schema mem table column items found
    have listed : ∃ levels, schema = taskSchema levels ∧ Distinct levels := by
      rcases List.mem_pair.mp mem with rfl | rfl
      · exact ⟨_, rfl, by decide, by decide⟩
      · exact ⟨_, rfl, by decide, by decide⟩
    obtain ⟨levels, rfl, distinct⟩ := listed
    rwa [task_items found]
  · refine .cons_cons ?_ (.singleton _)
    intro table column old new was becomes
    obtain rfl := task_items was
    obtain rfl := task_items becomes
    decide

end Vespertide
