import Vespertide.Action
import Vespertide.Support.KeyedView
import Mathlib.Data.Finset.Dedup
import Mathlib.Data.Finset.Insert
import Mathlib.Data.List.Lex
import Mathlib.Data.Prod.Lex
import Mathlib.Data.String.Basic

/-!
The scan of a plan for a primary key turned into a unique constraint, or back, on
the same columns. Removals and additions are collected into maps of one kind for
each listing of the columns, so what is found is what the last of them was.
-/
namespace Vespertide.TypeChanges

inductive ConstraintKind where
  | primaryKey | unique
  deriving DecidableEq, Repr

def ConstraintKind.other : ConstraintKind → ConstraintKind
  | .primaryKey => .unique
  | .unique => .primaryKey

/-- The columns are sorted: two orders of the same columns give one key. -/
structure ConstraintKey where
  table : String
  columns : List String
  deriving Repr

def ConstraintKey.new (table : String) (columns : List String) : ConstraintKey :=
  ⟨table, columns.insertionSort (· ≤ ·)⟩

def ConstraintKey.fields (key : ConstraintKey) : Lex (String × List String) :=
  toLex (key.table, key.columns)

theorem ConstraintKey.fields_injective : Function.Injective ConstraintKey.fields := by
  intro a b same
  obtain ⟨table, columns⟩ := Prod.mk.inj (toLex.injective same)
  cases a
  cases b
  simp_all

instance : LinearOrder ConstraintKey :=
  LinearOrder.lift' ConstraintKey.fields ConstraintKey.fields_injective

def classifyConstraint : TableConstraint → Option (ConstraintKind × List String)
  | .primaryKey _ columns _ => some (.primaryKey, columns)
  | .unique _ columns _ => some (.unique, columns)
  | _ => none

def keyedKind (table : String) (c : TableConstraint) : Option (ConstraintKey × ConstraintKind) :=
  (classifyConstraint c).map fun (kind, columns) => (.new table columns, kind)

def removes (plan : MigrationPlan) : List (ConstraintKey × ConstraintKind) :=
  plan.actions.filterMap fun
    | .removeConstraint table c => keyedKind table c
    | _ => none

def adds (plan : MigrationPlan) : List (ConstraintKey × ConstraintKind) :=
  plan.actions.filterMap fun
    | .addConstraint table c => keyedKind table c
    | _ => none

/-- The foreign keys of the baseline on this column set. -/
def renderFkHint (baseline : List TableDef) (targetTable : String) (targetColumns : List String) :
    String :=
  let hits := baseline.flatMap fun t => t.constraints.filterMap fun
    | .foreignKey name columns refTable refColumns _ _ _ =>
        if refTable = targetTable ∧ refColumns.toFinset = targetColumns.toFinset then
          some (t.name ++ "." ++ name.getD ("(" ++ ", ".intercalate columns ++ ")"))
        else none
    | _ => none
  if hits.isEmpty then ""
  else "Foreign keys referencing this column set: " ++ ", ".intercalate hits ++ "."

/-- The error, kept as the data it is formatted from. -/
structure ConstraintTypeChanged where
  removed : ConstraintKind
  key : ConstraintKey
  fkHint : String
  deriving DecidableEq, Repr

def ConstraintTypeChanged.kind (e : ConstraintTypeChanged) : String :=
  match e.removed with
  | .primaryKey => "PK → UQ"
  | .unique => "UQ → PK"

def ConstraintTypeChanged.columns (e : ConstraintTypeChanged) : String :=
  ", ".intercalate e.key.columns

def findConstraintTypeChanges (plan : MigrationPlan) (baseline : List TableDef) :
    List ConstraintTypeChanged :=
  let added := KeyedView.entries Prod.fst (adds plan)
  (KeyedView.entries Prod.fst (removes plan)).filterMap fun (key, removeKind) =>
    (added.lookup key).bind fun addKind =>
      if removeKind = addKind then none
      else some ⟨removeKind, key, renderFkHint baseline key.table key.columns⟩

/-! What a plan says of a column set, and what is reported -/

def RemovesOn (plan : MigrationPlan) (table : String) (columns : Finset String)
    (kind : ConstraintKind) : Prop :=
  ∃ c listing, .removeConstraint table c ∈ plan.actions ∧
    classifyConstraint c = some (kind, listing) ∧ listing.toFinset = columns

def AddsOn (plan : MigrationPlan) (table : String) (columns : Finset String)
    (kind : ConstraintKind) : Prop :=
  ∃ c listing, .addConstraint table c ∈ plan.actions ∧
    classifyConstraint c = some (kind, listing) ∧ listing.toFinset = columns

def SwapReported (plan : MigrationPlan) (baseline : List TableDef) (table : String)
    (columns : Finset String) (kind : ConstraintKind) : Prop :=
  ∃ e ∈ findConstraintTypeChanges plan baseline,
    e.removed = kind ∧ e.key.table = table ∧ e.key.columns.toFinset = columns

/-- Some event of this kind stands on the key, and none of the other kind after it. -/
def Lasts (events : List (ConstraintKey × ConstraintKind)) (key : ConstraintKey)
    (kind : ConstraintKind) : Prop :=
  ∃ before after, events = before ++ (key, kind) :: after ∧ (key, kind.other) ∉ after

/-- Where a swap is asked for, one listing of the columns carries it to the end of the plan. -/
def SwapsLast (plan : MigrationPlan) : Prop :=
  ∀ table columns kind, RemovesOn plan table columns kind → AddsOn plan table columns kind.other →
    ∃ key, key.table = table ∧ key.columns.toFinset = columns ∧
      Lasts (removes plan) key kind ∧ Lasts (adds plan) key kind.other

theorem other_of_ne {kind kind' : ConstraintKind} (apart : kind ≠ kind') : kind' = kind.other := by
  cases kind <;> cases kind' <;> simp_all [ConstraintKind.other]

theorem ne_other (kind : ConstraintKind) : kind ≠ kind.other := by
  cases kind <;> simp [ConstraintKind.other]

theorem lasts_iff {events : List (ConstraintKey × ConstraintKind)} {key : ConstraintKey}
    {kind : ConstraintKind} :
    Lasts events key kind ↔ KeyedView.get Prod.fst events key = some (key, kind) := by
  constructor
  · rintro ⟨before, after, rfl, settled⟩
    -- what comes after on this key can only be of the same kind
    cases later : KeyedView.get Prod.fst after key with
    | none =>
      exact KeyedView.get_eq_some_iff.mpr
        ⟨rfl, before, after, rfl, KeyedView.get_eq_none_iff.mp later⟩
    | some p =>
      obtain ⟨same, front, back, rfl, others⟩ := KeyedView.get_eq_some_iff.mp later
      have kept : p = (key, kind) := by
        refine Prod.ext same ?_
        by_contra apart
        refine settled (List.mem_append_right _ (List.mem_cons.mpr (.inl (Prod.ext same.symm ?_))))
        exact (other_of_ne (Ne.symm apart)).symm
      refine KeyedView.get_eq_some_iff.mpr ⟨rfl, before ++ (key, kind) :: front, back, ?_, others⟩
      rw [kept, List.append_assoc, List.cons_append]
  · intro found
    obtain ⟨-, before, after, split, others⟩ := KeyedView.get_eq_some_iff.mp found
    exact ⟨before, after, split, fun mem => others _ mem rfl⟩

theorem mem_changes_iff {plan : MigrationPlan} {baseline : List TableDef}
    {e : ConstraintTypeChanged} :
    e ∈ findConstraintTypeChanges plan baseline ↔
      Lasts (removes plan) e.key e.removed ∧ Lasts (adds plan) e.key e.removed.other ∧
        e.fkHint = renderFkHint baseline e.key.table e.key.columns := by
  obtain ⟨kind, key, hint⟩ := e
  simp only [findConstraintTypeChanges, List.mem_filterMap, Option.bind_eq_some_iff,
    KeyedView.lookup_entries, Option.map_eq_some_iff, lasts_iff]
  constructor
  · rintro ⟨⟨key', removed⟩, mem, added, ⟨⟨key'', _⟩, there, rfl⟩, made⟩
    split at made
    · cases made
    · rename_i apart
      obtain ⟨rfl, rfl, rfl⟩ := ConstraintTypeChanged.mk.inj (Option.some.inj made)
      obtain rfl : key'' = key' := (KeyedView.get_some there).2
      obtain rfl := other_of_ne apart
      exact ⟨KeyedView.mem_entries.mp mem, there, rfl⟩
  · rintro ⟨removed, added, rfl⟩
    exact ⟨(key, kind), KeyedView.mem_entries.mpr removed, kind.other, ⟨_, added, rfl⟩,
      if_neg (ne_other kind)⟩

theorem mem_keyed {events : List (ConstraintKey × ConstraintKind)} {key : ConstraintKey}
    {kind : ConstraintKind} (lasts : Lasts events key kind) : (key, kind) ∈ events := by
  obtain ⟨before, after, rfl, -⟩ := lasts
  exact List.mem_append_right _ List.mem_cons_self

theorem keyed_kind_iff {table : String} {c : TableConstraint} {key : ConstraintKey}
    {kind : ConstraintKind} :
    keyedKind table c = some (key, kind) ↔
      ∃ listing, classifyConstraint c = some (kind, listing) ∧
        ConstraintKey.new table listing = key := by
  simp only [keyedKind, Option.map_eq_some_iff, Prod.exists, Prod.mk.injEq]
  constructor
  · rintro ⟨kind', listing, here, same, rfl⟩
    exact ⟨listing, here, same⟩
  · rintro ⟨listing, here, same⟩
    exact ⟨kind, listing, here, same, rfl⟩

theorem key_columns (table : String) (listing : List String) :
    (ConstraintKey.new table listing).columns.toFinset = listing.toFinset :=
  List.toFinset_eq_of_perm _ _ (List.perm_insertionSort _ _)

theorem mem_removes {plan : MigrationPlan} {key : ConstraintKey} {kind : ConstraintKind}
    (mem : (key, kind) ∈ removes plan) : RemovesOn plan key.table key.columns.toFinset kind := by
  obtain ⟨action, listed, made⟩ := List.mem_filterMap.mp mem
  split at made
  · obtain ⟨listing, here, rfl⟩ := keyed_kind_iff.mp made
    exact ⟨_, listing, listed, here, (key_columns _ listing).symm⟩
  · cases made

theorem mem_adds {plan : MigrationPlan} {key : ConstraintKey} {kind : ConstraintKind}
    (mem : (key, kind) ∈ adds plan) : AddsOn plan key.table key.columns.toFinset kind := by
  obtain ⟨action, listed, made⟩ := List.mem_filterMap.mp mem
  split at made
  · obtain ⟨listing, here, rfl⟩ := keyed_kind_iff.mp made
    exact ⟨_, listing, listed, here, (key_columns _ listing).symm⟩
  · cases made

theorem reported_iff {plan : MigrationPlan} {baseline : List TableDef} {table : String}
    {columns : Finset String} {kind : ConstraintKind} :
    SwapReported plan baseline table columns kind ↔
      ∃ key, key.table = table ∧ key.columns.toFinset = columns ∧
        Lasts (removes plan) key kind ∧ Lasts (adds plan) key kind.other := by
  constructor
  · rintro ⟨e, mem, rfl, rfl, rfl⟩
    obtain ⟨removed, added, -⟩ := mem_changes_iff.mp mem
    exact ⟨e.key, rfl, rfl, removed, added⟩
  · rintro ⟨key, rfl, rfl, removed, added⟩
    exact ⟨⟨kind, key, renderFkHint baseline key.table key.columns⟩,
      mem_changes_iff.mpr ⟨removed, added, rfl⟩, rfl, rfl, rfl⟩

/-- The scan is exact just where no later key overwrites a swap. -/
theorem type_changes_exact_iff (plan : MigrationPlan) (baseline : List TableDef) :
    (∀ table columns kind, SwapReported plan baseline table columns kind ↔
      RemovesOn plan table columns kind ∧ AddsOn plan table columns kind.other) ↔
    SwapsLast plan := by
  simp only [reported_iff, SwapsLast]
  constructor
  · intro exact table columns kind removed added
    exact (exact table columns kind).mpr ⟨removed, added⟩
  · intro lasting table columns kind
    refine ⟨?_, fun asked => lasting table columns kind asked.1 asked.2⟩
    rintro ⟨key, rfl, rfl, removed, added⟩
    exact ⟨mem_removes (mem_keyed removed), mem_adds (mem_keyed added)⟩

/-! A primary key swapped for a unique constraint, beside a renamed unique constraint -/

def uniqueNamed (name : String) : TableConstraint := .unique name ["id"] .default

def swapPlan : MigrationPlan where
  id := "swap"
  comment := none
  createdAt := none
  version := 2
  actions := [.removeConstraint "user" (.primaryKey false ["id"] .default),
    .removeConstraint "user" (uniqueNamed "uq_old"), .addConstraint "user" (uniqueNamed "uq_new")]

theorem swap_overwritten :
    RemovesOn swapPlan "user" {"id"} .primaryKey ∧ AddsOn swapPlan "user" {"id"} .unique ∧
      ¬ SwapReported swapPlan [] "user" {"id"} .primaryKey := by
  refine ⟨⟨_, ["id"], List.mem_cons_self, rfl, rfl⟩,
    ⟨uniqueNamed "uq_new", ["id"], ?_, rfl, rfl⟩, ?_⟩
  · simp [swapPlan]
  · intro reported
    obtain ⟨key, -, -, ⟨before, after, split, settled⟩, -⟩ := reported_iff.mp reported
    change [(ConstraintKey.new "user" ["id"], ConstraintKind.primaryKey),
      (.new "user" ["id"], .unique)] = before ++ (key, .primaryKey) :: after at split
    cases before with
    | nil =>
      obtain ⟨first, rest⟩ := List.cons.inj split
      obtain ⟨rfl, -⟩ := Prod.mk.inj first
      exact settled (rest ▸ List.mem_singleton_self _)
    | cons _ before =>
      have later : (key, ConstraintKind.primaryKey) ∈
          [(ConstraintKey.new "user" ["id"], ConstraintKind.unique)] :=
        (List.cons.inj split).2 ▸ List.mem_append_right _ List.mem_cons_self
      simp at later

end Vespertide.TypeChanges
