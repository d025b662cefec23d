import Vespertide.DropOrder

/-!
Drops among the other actions of any list. They only change places among
themselves, and a table goes before those it references unless the fallback
position of the tables on or behind a cycle puts the two on a level.
-/
namespace Vespertide
open ReadyOrder Rearrange

def DeletionDependency (drops : List String) (allTables : List TableDef) (a b : String) : Prop :=
  b ∈ drops ∧ a ∈ drops ∧ a ≠ b ∧ ReferencesTable allTables b a

abbrev ReachesDropped (drops : List String) (allTables : List TableDef) (b a : String) : Prop :=
  Relation.ReflTransGen (DeletionDependency drops allTables) a b

def OnOrBehindCycle (drops : List String) (allTables : List TableDef) (name : String) : Prop :=
  ∃ z, Relation.TransGen (DeletionDependency drops allTables) z z ∧
    ReachesDropped drops allTables name z

/-- Only drops change places, and only among themselves. -/
structure DropsMoved (actions sorted : List MigrationAction) : Prop where
  perm : sorted.Perm actions
  stays : ∀ (i : Nat) a, actions[i]? = some a → isDeleteTable a = false → sorted[i]? = some a

/-- A table that references another one, and is not reached back, is dropped first. -/
def DependentsFirst (drops : List String) (allTables : List TableDef)
    (sorted : List MigrationAction) : Prop :=
  ∀ x y, DeletionDependency drops allTables y x → ¬ ReachesDropped drops allTables y x →
    ¬ List.Sublist [.deleteTable y, .deleteTable x] sorted

/-- The condition: where a table on or behind a cycle references a table that shares the
    first position with it, the two stand in the right order already. -/
def TiesInOrder (actions : List MigrationAction) (allTables : List TableDef) : Prop :=
  ∀ x y, DeletionDependency (dropNames actions) allTables y x →
    ¬ ReachesDropped (dropNames actions) allTables y x →
    OnOrBehindCycle (dropNames actions) allTables x →
    (OnOrBehindCycle (dropNames actions) allTables y ∨
      (kahnReadyOrder (deletionDependencies (dropNames actions) allTables)).getLast? = some y) →
    ¬ List.Sublist [.deleteTable y, .deleteTable x] actions

section Positions
variable {drops : List String} {allTables : List TableDef}

theorem depends_on_deletion {a b : String} :
    DependsOn (deletionDependencies drops allTables) a b ↔
      DeletionDependency drops allTables a b := by
  constructor
  · rintro ⟨d, mem, rfl, needed⟩
    have listed : d.1 ∈ drops := by
      have here := List.mem_map_of_mem (f := Prod.fst) mem
      rw [deletion_names, KeyedView.mem_keys] at here
      obtain ⟨name, known, same⟩ := here
      exact same ▸ known
    rw [← dependencies_of_mem deletion_proper.names_nodup mem] at needed
    exact ⟨listed, (mem_deletion_dependencies listed).mp needed⟩
  · rintro ⟨listed, rest⟩
    have mem : (b, _) ∈ deletionDependencies drops allTables :=
      List.mem_map.mpr ⟨b, KeyedView.mem_keys.mpr ⟨b, listed, rfl⟩, rfl⟩
    have needed := (mem_deletion_dependencies listed).mpr rest
    rw [dependencies_of_mem deletion_proper.names_nodup mem] at needed
    exact ⟨_, mem, rfl, needed⟩

theorem placed_iff {name : String} (dropped : name ∈ drops) :
    name ∈ kahnReadyOrder (deletionDependencies drops allTables) ↔
      ¬ OnOrBehindCycle drops allTables name := by
  have same : DependsOn (deletionDependencies drops allTables) =
      DeletionDependency drops allTables :=
    funext fun _ => funext fun _ => propext depends_on_deletion
  have known : name ∈ (deletionDependencies drops allTables).map Prod.fst := by
    rw [deletion_names, KeyedView.mem_keys]
    exact ⟨name, dropped, rfl⟩
  rw [kahn_placed_iff deletion_proper known, BehindCycle, same]
  rfl

theorem position_unplaced {name : String} (dropped : name ∈ drops)
    (behind : OnOrBehindCycle drops allTables name) : dropPosition drops allTables name = 0 := by
  have absent := (not_congr (placed_iff dropped)).mpr (not_not.mpr behind)
  simp [dropPosition, absent]

theorem position_zero_iff {name : String} (dropped : name ∈ drops) :
    dropPosition drops allTables name = 0 ↔ OnOrBehindCycle drops allTables name ∨
      (kahnReadyOrder (deletionDependencies drops allTables)).getLast? = some name := by
  constructor
  · intro first
    refine or_iff_not_imp_left.mpr fun apart => ?_
    have placed := (placed_iff dropped).mpr apart
    have here := List.mem_reverse.mpr placed
    rw [dropPosition, if_pos here] at first
    rw [← List.head?_reverse, List.head?_eq_getElem?, ← first]
    exact List.getElem?_idxOf here
  · rintro (behind | last)
    · exact position_unplaced dropped behind
    · rw [← List.head?_reverse] at last
      obtain ⟨rest, shape⟩ := List.head?_eq_some_iff.mp last
      simp [dropPosition, shape]

/-- Before the sort or after it, `y` is dropped ahead of `x`. -/
theorem drops_behind_iff {x y : String} (dependent : DeletionDependency drops allTables y x) :
    List.Sublist [y, x] (dropOrder drops allTables) ↔
      OnOrBehindCycle drops allTables x ∧
      (OnOrBehindCycle drops allTables y ∨
        (kahnReadyOrder (deletionDependencies drops allTables)).getLast? = some y) ∧
      List.Sublist [y, x] drops := by
  have ⟨x_dropped, y_dropped, other, _⟩ := dependent
  rw [dropOrder, pair_sorted_iff _ x_dropped y_dropped]
  by_cases behind : OnOrBehindCycle drops allTables x
  · rw [position_unplaced x_dropped behind, position_zero_iff y_dropped]
    simp [behind]
  · have placed := (placed_iff x_dropped).mpr behind
    have needs := depends_on_deletion.mpr dependent
    have earlier := kahn_before deletion_proper placed needs
    obtain ⟨d, mem, rfl, needed⟩ := needs
    rw [← dependencies_of_mem deletion_proper.names_nodup mem] at needed
    have before := position_before needed placed earlier.1 other
    constructor
    · rintro (lower | ⟨level, _⟩)
      · omega
      · omega
    · rintro ⟨cyclic, _⟩
      exact absurd cyclic behind

end Positions

theorem drops_sublist {actions : List MigrationAction} {x y : String} :
    List.Sublist [.deleteTable y, .deleteTable x] actions ↔
      List.Sublist [y, x] (dropNames actions) := by
  constructor
  · intro behind
    exact behind.filterMap deleteTableName
  · intro behind
    have own : actions.filter isDeleteTable = (dropNames actions).map .deleteTable := by
      clear behind
      induction actions with
      | nil => rfl
      | cons a actions ih =>
        rcases delete_table_cases a with ⟨name, rfl⟩ | drop_other
        · rw [drop_names_drop, List.map_cons, ← ih]
          rfl
        · rw [drop_names_other drop_other, ← ih, List.filter_cons_of_neg (by simp [drop_other])]
    have moved := behind.map MigrationAction.deleteTable
    rw [← own] at moved
    exact moved.trans List.filter_sublist

theorem drops_moved (actions : List MigrationAction) (allTables : List TableDef) :
    DropsMoved actions (sortDeleteTables actions allTables) := by
  rw [sort_delete_tables_refill]
  exact ⟨refill_perm (drop_order_perm _ _), fun _ _ here other => refill_stays here other⟩

/-- The drops come out with dependents first just when the ties of the fallback position
    were in order. -/
theorem sort_delete_tables_safe_iff (actions : List MigrationAction) (allTables : List TableDef) :
    (DropsMoved actions (sortDeleteTables actions allTables) ∧
      DependentsFirst (dropNames actions) allTables (sortDeleteTables actions allTables)) ↔
      TiesInOrder actions allTables := by
  have out : dropNames (sortDeleteTables actions allTables) =
      dropOrder (dropNames actions) allTables := by
    rw [sort_delete_tables_refill, refill_names (drop_order_perm _ _).length_eq]
  constructor
  · rintro ⟨_, first⟩ x y dependent apart x_cyclic y_tied behind
    refine first x y dependent apart ?_
    rw [drops_sublist, out, drops_behind_iff dependent]
    exact ⟨x_cyclic, y_tied, drops_sublist.mp behind⟩
  · intro ties
    refine ⟨drops_moved actions allTables, fun x y dependent apart behind => ?_⟩
    rw [drops_sublist, out, drops_behind_iff dependent] at behind
    obtain ⟨x_cyclic, y_tied, was_behind⟩ := behind
    exact ties x y dependent apart x_cyclic y_tied (drops_sublist.mpr was_behind)

def entangledTables : List TableDef :=
  [⟨"a", none, [], [.foreignKey none ["id"] "b" ["id"] none none .default]⟩,
    ⟨"b", none, [], [.foreignKey none ["id"] "a" ["id"] none none .default]⟩,
    ⟨"c", none, [], [.foreignKey none ["id"] "a" ["id"] none none .default]⟩]

def entangledDrops : List MigrationAction := [.deleteTable "a", .deleteTable "b", .deleteTable "c"]

theorem entangled_sources {x y : String}
    (dependent : DeletionDependency (dropNames entangledDrops) entangledTables y x) :
    y = "a" ∨ y = "b" := by
  obtain ⟨_, _, _, t, found, c, mem, refers⟩ := dependent
  have targets : ∀ t ∈ entangledTables, ∀ c ∈ t.constraints, ∀ r ∈ refTableOf c,
      r = "a" ∨ r = "b" := by
    decide
  exact targets t (KeyedView.get_some found).1 c mem y refers

/-- The table `c` references `a`, which does not lead back to it, and is dropped after it. -/
theorem entangled_drop_late : ¬ ∀ actions allTables,
    DropsMoved actions (sortDeleteTables actions allTables) ∧
      DependentsFirst (dropNames actions) allTables (sortDeleteTables actions allTables) := by
  intro safe
  have kept : sortDeleteTables entangledDrops entangledTables = entangledDrops := by decide
  have dependent : DeletionDependency (dropNames entangledDrops) entangledTables "a" "c" :=
    ⟨by decide, by decide, by decide, _, rfl, _, List.mem_singleton_self _, rfl⟩
  have first := (safe entangledDrops entangledTables).2 "c" "a" dependent
  rw [kept] at first
  refine first ?_ (by decide)
  intro reaches
  rcases Relation.reflTransGen_iff_eq_or_transGen.mp reaches with same | chain
  · exact absurd same (by decide)
  · obtain ⟨_, head, _⟩ := Relation.TransGen.head'_iff.mp chain
    rcases entangled_sources head with same | same
    · exact absurd same (by decide)
    · exact absurd same (by decide)

end Vespertide
