import Vespertide.DropOrder
import Vespertide.Replay

/-!
The order in which tables are created: a rearrangement of the new tables in
which no table references a later one.
-/
namespace Vespertide
open ReadyOrder

section Creation
variable {tables : List TableDef}

theorem creation_names : (creationDependencies tables).map Prod.fst = tableKeys tables := by
  rw [creationDependencies, List.map_map]
  exact KeyedView.map_key_entries TableDef.name tables

theorem creation_proper : Proper (creationDependencies tables) := by
  constructor
  · rw [creation_names]
    exact KeyedView.keys_nodup _ _
  · intro d mem
    obtain ⟨t, _, rfl⟩ := List.mem_map.mp mem
    exact KeyedView.keys_nodup _ _
  · intro d mem x needed
    obtain ⟨t, _, rfl⟩ := List.mem_map.mp mem
    rw [creation_names, KeyedView.mem_keys]
    exact List.mem_map.mp (mem_referenced.mp needed).1

variable (nodup : TableNamesNodup tables)
include nodup

theorem mem_creation_dependencies {t : TableDef} (mem : t ∈ tables) {x : String} :
    x ∈ dependenciesOf (creationDependencies tables) t.name ↔
      x ∈ tables.map (·.name) ∧ x ≠ t.name ∧ ∃ c ∈ t.constraints, refTableOf c = some x := by
  have listed : (t.name, referencedTables (tables.map (·.name)) t.name t.constraints) ∈
      creationDependencies tables :=
    List.mem_map.mpr ⟨t, KeyedView.mem_entries.mpr (KeyedView.get_of_nodup nodup mem), rfl⟩
  rw [dependencies_of_mem creation_proper.names_nodup listed, mem_referenced]

omit nodup in
theorem placed_names (tables : List TableDef) : ((kahnReadyOrder (creationDependencies tables)).filterMap
    (tableGet tables)).map (·.name) = kahnReadyOrder (creationDependencies tables) := by
  have known : ∀ n ∈ kahnReadyOrder (creationDependencies tables),
      ∃ t, tableGet tables n = some t ∧ t.name = n := by
    intro n mem
    have listed := kahn_known creation_proper mem
    rw [creation_names, KeyedView.mem_keys] at listed
    obtain ⟨t, found⟩ := Option.isSome_iff_exists.mp (KeyedView.get_isSome_iff.mpr listed)
    exact ⟨t, found, (KeyedView.get_some found).2⟩
  generalize kahnReadyOrder (creationDependencies tables) = names at known
  induction names with
  | nil => rfl
  | cons n names ih =>
    obtain ⟨t, found, same⟩ := known n List.mem_cons_self
    rw [List.filterMap_cons_some found, List.map_cons, same,
      ih fun m mem => known m (List.mem_cons_of_mem n mem)]

theorem topological_sort {result : List TableDef} (ok : topologicalSortTables tables = .ok result) :
    result.Perm tables ∧
      result.Pairwise fun a b => ∀ c ∈ a.constraints, refTableOf c ≠ some b.name := by
  unfold topologicalSortTables at ok
  split at ok
  · rename_i none_new
    obtain rfl := Except.ok.inj ok
    exact ⟨none_new ▸ .refl _, .nil⟩
  · dsimp only at ok
    split at ok
    · cases ok
    · rename_i complete
      obtain rfl := Except.ok.inj ok
      rw [ne_eq, not_not] at complete
      have names := placed_names tables
      set result := (kahnReadyOrder (creationDependencies tables)).filterMap (tableGet tables)
      have distinct : (result.map (·.name)).Nodup := names ▸ kahn_nodup creation_proper
      have within : result ⊆ tables := by
        intro t mem
        obtain ⟨n, _, found⟩ := List.mem_filterMap.mp mem
        exact (KeyedView.get_some found).1
      refine ⟨(List.Nodup.of_map _ distinct).subperm within |>.perm_of_length_le complete.ge, ?_⟩
      have independent := kahn_pairwise (@creation_proper tables)
      rw [← names, List.pairwise_map] at independent
      have apart : result.Pairwise fun a b => a.name ≠ b.name := List.pairwise_map.mp distinct
      refine (independent.and apart).imp_of_mem ?_
      rintro a b a_mem b_mem ⟨free, other⟩ c mem refers
      exact free ((mem_creation_dependencies nodup (within a_mem)).mpr
        ⟨List.mem_map_of_mem (within b_mem), Ne.symm other, c, mem, refers⟩)

/-! Success and cycles -/

def CreationDependency (tables : List TableDef) (a b : String) : Prop :=
  b ∈ tables.map (·.name) ∧ a ∈ tables.map (·.name) ∧ a ≠ b ∧ ReferencesTable tables b a

def CreationsAcyclic (tables : List TableDef) : Prop :=
  ∀ name, ¬ Relation.TransGen (CreationDependency tables) name name

omit nodup in
theorem depends_on_creation {a b : String} :
    DependsOn (creationDependencies tables) a b ↔ CreationDependency tables a b := by
  constructor
  · rintro ⟨d, mem, rfl, needed⟩
    obtain ⟨t, listed, rfl⟩ := List.mem_map.mp mem
    have found := KeyedView.mem_entries.mp listed
    obtain ⟨known, other, c, c_mem, refers⟩ := mem_referenced.mp needed
    exact ⟨List.mem_map_of_mem (KeyedView.get_some found).1, known, other, t, found, c, c_mem,
      refers⟩
  · rintro ⟨_, known, other, t, found, c, c_mem, refers⟩
    obtain ⟨_, rfl⟩ := KeyedView.get_some found
    exact ⟨_, List.mem_map.mpr ⟨t, KeyedView.mem_entries.mpr found, rfl⟩, rfl,
      mem_referenced.mpr ⟨known, other, c, c_mem, refers⟩⟩

omit nodup in
theorem creations_acyclic_iff :
    Acyclic (creationDependencies tables) ↔ CreationsAcyclic tables := by
  have same : DependsOn (creationDependencies tables) = CreationDependency tables :=
    funext fun _ => funext fun _ => propext depends_on_creation
  rw [Acyclic, CreationsAcyclic, same]

theorem placed_length_iff : ((kahnReadyOrder (creationDependencies tables)).filterMap
      (tableGet tables)).length = tables.length ↔
    ∀ n ∈ (creationDependencies tables).map Prod.fst,
      n ∈ kahnReadyOrder (creationDependencies tables) := by
  have order_nodup := kahn_nodup (@creation_proper tables)
  have known : ∀ n ∈ kahnReadyOrder (creationDependencies tables), n ∈ tableKeys tables :=
    fun n mem => @creation_names tables ▸ kahn_known creation_proper mem
  have keys_length : (tableKeys tables).length = tables.length := by
    simp only [tableKeys, KeyedView.keys, List.length_insertionSort, List.dedup_eq_self.mpr nodup,
      List.length_map]
  have keys_nodup : (tableKeys tables).Nodup := KeyedView.keys_nodup _ _
  have placed := congrArg List.length (placed_names tables)
  rw [List.length_map] at placed
  rw [placed, creation_names, ← keys_length]
  constructor
  · intro full n mem
    exact ((order_nodup.subperm known).perm_of_length_le full.ge).mem_iff.mpr mem
  · intro all
    exact ((order_nodup.subperm known).antisymm (keys_nodup.subperm all)).length_eq

theorem topological_sort_ok_iff :
    (∃ result, topologicalSortTables tables = .ok result) ↔ CreationsAcyclic tables := by
  have complete := (placed_length_iff nodup).trans
    ⟨acyclic_of_placed creation_proper, fun acyclic _ known =>
      kahn_complete creation_proper acyclic known⟩
  rw [← creations_acyclic_iff, ← complete]
  unfold topologicalSortTables
  split
  · rename_i none_new
    subst none_new
    exact ⟨fun _ => rfl, fun _ => ⟨[], rfl⟩⟩
  · dsimp only
    split
    · rename_i short
      exact ⟨fun ⟨_, failed⟩ => (by cases failed), fun full => absurd full short⟩
    · rename_i full
      exact ⟨fun _ => not_not.mp full, fun _ => ⟨_, rfl⟩⟩

omit nodup in
/-- No table references a later one: what a table references stands before it. -/
theorem referenced_before {result : List TableDef} (perm : result.Perm tables)
    (order : result.Pairwise fun a b => ∀ c ∈ a.constraints, refTableOf c ≠ some b.name)
    {before after : List TableDef} {t u : TableDef} (split : result = before ++ t :: after)
    (mem : u ∈ tables) (other : u.name ≠ t.name)
    (refers : ∃ c ∈ t.constraints, refTableOf c = some u.name) : u ∈ before := by
  obtain ⟨c, c_mem, same⟩ := refers
  have listed : u ∈ before ++ t :: after := split ▸ perm.mem_iff.mpr mem
  rw [split] at order
  rcases List.mem_append.mp listed with earlier | rest
  · exact earlier
  · rcases List.mem_cons.mp rest with rfl | later
    · exact absurd rfl other
    · have apart := (List.pairwise_cons.mp (List.pairwise_append.mp order).2.1).1 u later c c_mem
      exact absurd same apart

/-- Tables can be put in order just when their references make no cycle, and then
    every table stands behind the tables it references. -/
theorem topological_sort_correct :
    ((∃ result, topologicalSortTables tables = .ok result) ↔ CreationsAcyclic tables) ∧
      ∀ result, topologicalSortTables tables = .ok result → result.Perm tables ∧
        ∀ before t after, result = before ++ t :: after → ∀ u ∈ tables, u.name ≠ t.name →
          (∃ c ∈ t.constraints, refTableOf c = some u.name) → u ∈ before := by
  refine ⟨topological_sort_ok_iff nodup, fun result ok => ?_⟩
  obtain ⟨perm, order⟩ := topological_sort nodup ok
  exact ⟨perm, fun _ _ _ split u mem other refers =>
    referenced_before perm order split mem other refers⟩

end Creation

def referringTable (name : String) (refTables : List String) : TableDef :=
  ⟨name, none, [.new "id" (.simple .integer) false],
    refTables.map fun refTable => .foreignKey none ["id"] refTable ["id"] none none .default⟩

/-- Two references to one table, and one of a table to itself. -/
theorem author_order_correct :
    ((∃ result, topologicalSortTables [referringTable "book" ["author", "author"],
        referringTable "author" ["author"]] = .ok result) ↔
      CreationsAcyclic [referringTable "book" ["author", "author"],
        referringTable "author" ["author"]]) ∧
      ∀ result, topologicalSortTables [referringTable "book" ["author", "author"],
          referringTable "author" ["author"]] = .ok result →
        result.Perm [referringTable "book" ["author", "author"],
          referringTable "author" ["author"]] ∧
        ∀ before t after, result = before ++ t :: after →
          ∀ u ∈ [referringTable "book" ["author", "author"], referringTable "author" ["author"]],
            u.name ≠ t.name → (∃ c ∈ t.constraints, refTableOf c = some u.name) → u ∈ before :=
  topological_sort_correct (by decide)

example : topologicalSortTables [referringTable "book" ["author", "author"],
    referringTable "author" ["author"]] =
      .ok [referringTable "author" ["author"], referringTable "book" ["author", "author"]] := by
  decide

end Vespertide
