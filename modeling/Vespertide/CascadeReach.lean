import Vespertide.Action
import Vespertide.Support.SearchForests

/-!
How far a deletion cascades from the parent of each added foreign key, and what
of it depends on the order in which the schema lists its tables.
-/
namespace Vespertide

open DepthFirst

/-! Analysis -/

inductive CascadeRiskLevel where
  | deep
  | highFanout
  | critical
  deriving DecidableEq, Repr

structure CascadeReachWarning where
  actionIndex : Nat
  originChildTable : String
  originColumns : List String
  parentTable : String
  depth : Nat
  reachedTables : List String
  maxFanout : Nat
  riskLevel : CascadeRiskLevel
  deriving DecidableEq, Repr

def deepThreshold : Nat := 3
def highFanoutThreshold : Nat := 3

def cascadeEdge (table : String) : TableConstraint → Option (String × String)
  | .foreignKey _ _ refTable _ (some .cascade) _ _ => some (refTable, table)
  | _ => none

def addedEdge : MigrationAction → Option (String × String)
  | .addConstraint table constraint => cascadeEdge table constraint
  | _ => none

def buildCascadeGraph (baseline : List TableDef) (plan : MigrationPlan) :
    List (String × String) :=
  baseline.flatMap (fun t => t.constraints.filterMap (cascadeEdge t.name)) ++
    plan.actions.filterMap addedEdge

def dfsCascade (graph : List (String × String)) (start : String) : Nat × List String × Nat :=
  let found := search graph start
  (found.depth, found.reached, found.fanout)

def classifyRisk (depth maxFanout : Nat) : Option CascadeRiskLevel :=
  match decide (deepThreshold ≤ depth), decide (highFanoutThreshold ≤ maxFanout) with
  | true, true => some .critical
  | true, false => some .deep
  | false, true => some .highFanout
  | false, false => none

def cascadeWarning (graph : List (String × String)) (idx : Nat) :
    MigrationAction → Option CascadeReachWarning
  | .addConstraint table (.foreignKey _ columns refTable _ (some .cascade) _ _) =>
      let (depth, reached, maxFanout) := dfsCascade graph refTable
      (classifyRisk depth maxFanout).map fun riskLevel =>
        ⟨idx, table, columns, refTable, depth, reached, maxFanout, riskLevel⟩
  | _ => none

def findCascadeReachViolations (plan : MigrationPlan) (baseline : List TableDef) :
    List CascadeReachWarning :=
  plan.actions.zipIdx.filterMap fun (action, idx) =>
    cascadeWarning (buildCascadeGraph baseline plan) idx action

/-! Foreign keys -/

def CascadesFrom (parent : String) (constraint : TableConstraint) : Prop :=
  ∃ name columns refColumns onUpdate orphanStrategy, constraint =
    .foreignKey name columns parent refColumns (some .cascade) onUpdate orphanStrategy

/-- A foreign key of the schema cascades from the parent to the child. -/
def KeptStep (baseline : List TableDef) (parent child : String) : Prop :=
  ∃ t ∈ baseline, t.name = child ∧ ∃ c ∈ t.constraints, CascadesFrom parent c

/-- A foreign key of the child, in the schema or added by the plan, cascades from the parent. -/
def CascadeStep (baseline : List TableDef) (plan : MigrationPlan) (parent child : String) : Prop :=
  KeptStep baseline parent child ∨
    ∃ c, .addConstraint child c ∈ plan.actions ∧ CascadesFrom parent c

def CascadesTo (baseline : List TableDef) (plan : MigrationPlan) : String → String → Prop :=
  Relation.ReflTransGen (CascadeStep baseline plan)

theorem cascade_edge_iff {table parent child : String} {constraint : TableConstraint} :
    cascadeEdge table constraint = some (parent, child) ↔
      table = child ∧ CascadesFrom parent constraint := by
  constructor
  · intro edge
    unfold cascadeEdge at edge
    split at edge
    · cases edge
      exact ⟨rfl, _, _, _, _, _, rfl⟩
    · cases edge
  · rintro ⟨rfl, name, columns, refColumns, onUpdate, orphanStrategy, rfl⟩
    rfl

/-- The children that the tables of the schema give a table, as the search takes them. -/
def keptChildren (baseline : List TableDef) (parent : String) : List String :=
  stacked (baseline.flatMap fun t => t.constraints.filterMap (cascadeEdge t.name)) parent

/-- The children that added foreign keys give a table. The search takes them before the others,
    the last added one first. -/
def addedChildren (plan : MigrationPlan) (parent : String) : List String :=
  stacked (plan.actions.filterMap addedEdge) parent

theorem stacked_graph (baseline : List TableDef) (plan : MigrationPlan) (parent : String) :
    stacked (buildCascadeGraph baseline plan) parent =
      addedChildren plan parent ++ keptChildren baseline parent := by
  simp [stacked, childrenOf, buildCascadeGraph, addedChildren, keptChildren]

theorem kept_child_iff {baseline : List TableDef} {parent child : String} :
    child ∈ keptChildren baseline parent ↔ KeptStep baseline parent child := by
  have listed : child ∈ keptChildren baseline parent ↔ (parent, child) ∈
      baseline.flatMap fun t => t.constraints.filterMap (cascadeEdge t.name) := by
    simp [keptChildren, stacked, childrenOf]
  rw [listed, List.mem_flatMap]
  constructor
  · rintro ⟨t, mem, edge⟩
    obtain ⟨c, held, same⟩ := List.mem_filterMap.mp edge
    obtain ⟨name, cascades⟩ := cascade_edge_iff.mp same
    exact ⟨t, mem, name, c, held, cascades⟩
  · rintro ⟨t, mem, name, c, held, cascades⟩
    exact ⟨t, mem, List.mem_filterMap.mpr ⟨c, held, cascade_edge_iff.mpr ⟨name, cascades⟩⟩⟩

theorem added_child_iff {plan : MigrationPlan} {parent child : String} :
    child ∈ addedChildren plan parent ↔
      ∃ c, .addConstraint child c ∈ plan.actions ∧ CascadesFrom parent c := by
  have listed : child ∈ addedChildren plan parent ↔
      (parent, child) ∈ plan.actions.filterMap addedEdge := by
    simp [addedChildren, stacked, childrenOf]
  rw [listed, List.mem_filterMap]
  constructor
  · rintro ⟨action, mem, edge⟩
    unfold addedEdge at edge
    split at edge
    · obtain ⟨rfl, cascades⟩ := cascade_edge_iff.mp edge
      exact ⟨_, mem, cascades⟩
    · cases edge
  · rintro ⟨c, mem, cascades⟩
    exact ⟨_, mem, cascade_edge_iff.mpr ⟨rfl, cascades⟩⟩

theorem child_iff {baseline : List TableDef} {plan : MigrationPlan} {parent child : String} :
    child ∈ childrenOf (buildCascadeGraph baseline plan) parent ↔
      CascadeStep baseline plan parent child := by
  rw [← List.mem_reverse, ← stacked, stacked_graph, List.mem_append, added_child_iff,
    kept_child_iff, or_comm, CascadeStep]

theorem edges_reach_iff {baseline : List TableDef} {plan : MigrationPlan} {start t : String} :
    DepthFirst.Reaches (buildCascadeGraph baseline plan) start t ↔
      CascadesTo baseline plan start t := by
  have same : (fun u w => w ∈ childrenOf (buildCascadeGraph baseline plan) u) =
      CascadeStep baseline plan := by
    funext parent child
    exact propext child_iff
  rw [DepthFirst.Reaches, CascadesTo, same]

/-! Other listings -/

/-- The same schema with its tables and their constraints listed in another order. -/
def Relisted (baseline baseline' : List TableDef) : Prop :=
  ∃ tables, baseline.Perm tables ∧
    List.Forall₂ (fun t t' => t.name = t'.name ∧ t.constraints.Perm t'.constraints) tables baseline'

theorem kept_edges_perm {baseline baseline' : List TableDef}
    (relisted : Relisted baseline baseline') :
    (baseline.flatMap fun t => t.constraints.filterMap (cascadeEdge t.name)).Perm
      (baseline'.flatMap fun t => t.constraints.filterMap (cascadeEdge t.name)) := by
  obtain ⟨tables, perm, same⟩ := relisted
  refine (perm.flatMap_right _).trans ?_
  clear perm
  induction same with
  | nil => exact .refl _
  | cons first others ih =>
    rw [List.flatMap_cons, List.flatMap_cons, first.1]
    exact (first.2.filterMap _).append ih

theorem graph_perm {baseline baseline' : List TableDef} (relisted : Relisted baseline baseline')
    (plan : MigrationPlan) :
    (buildCascadeGraph baseline plan).Perm (buildCascadeGraph baseline' plan) :=
  (kept_edges_perm relisted).append_right _

/-! Depth -/

/-- Every way of searching goes as deep as every path without repetition that no added key cuts
    short. -/
def DepthSettled (baseline : List TableDef) (plan : MigrationPlan) (start : String) : Prop :=
  ∀ forest ahead, Grown (addedChildren plan) (KeptStep baseline) start [start] forest →
    Way (addedChildren plan) (KeptStep baseline) [start] start ahead →
    ahead.length ≤ forest.height

section Listings
variable {baseline baseline' : List TableDef} {plan : MigrationPlan} {start : String}

theorem relisted_refl (baseline : List TableDef) : Relisted baseline baseline :=
  ⟨_, .refl _, List.forall₂_same.mpr fun _ _ => ⟨rfl, .refl _⟩⟩

theorem kept_step_relisted (relisted : Relisted baseline baseline') (parent child : String) :
    KeptStep baseline' parent child ↔ KeptStep baseline parent child := by
  have same := (children_perm (kept_edges_perm relisted) parent).mem_iff (a := child)
  rw [← kept_child_iff, ← kept_child_iff, keptChildren, keptChildren, stacked, stacked,
    List.mem_reverse, List.mem_reverse, same]

/-- The forest that the search grows on a listing is one of those that may be grown. -/
theorem forest_of_listing (relisted : Relisted baseline baseline') (plan : MigrationPlan)
    (start : String) :
    ∃ forest, Grown (addedChildren plan) (KeptStep baseline) start [start] forest ∧
      forest.height = (dfsCascade (buildCascadeGraph baseline' plan) start).1 := by
  obtain ⟨forest, grown, high⟩ := search_grown (buildCascadeGraph baseline' plan) start
  refine ⟨forest, grown.loosen (stacked_graph baseline' plan) fun u w => ?_, high⟩
  rw [kept_child_iff, kept_step_relisted relisted]

/-- The tables that a forest comes to first are listed last. -/
def listingOf (baseline : List TableDef) (forest : Forest String) : List TableDef :=
  baseline.mergeSort fun t t' => forest.nodes.idxOf t'.name ≤ forest.nodes.idxOf t.name

theorem relisted_listing (baseline : List TableDef) (forest : Forest String) :
    Relisted baseline (listingOf baseline forest) :=
  ⟨_, (List.mergeSort_perm _ _).symm, List.forall₂_same.mpr fun _ _ => ⟨rfl, .refl _⟩⟩

theorem listing_sorted (baseline : List TableDef) (forest : Forest String) (parent : String) :
    (keptChildren (listingOf baseline forest) parent).Pairwise fun v w =>
      forest.nodes.idxOf v ≤ forest.nodes.idxOf w := by
  have tables : (listingOf baseline forest).Pairwise fun t t' =>
      forest.nodes.idxOf t'.name ≤ forest.nodes.idxOf t.name := by
    refine (List.pairwise_mergeSort ?_ ?_ baseline).imp fun le => of_decide_eq_true le
    · intro a b c le le'
      exact decide_eq_true ((of_decide_eq_true le').trans (of_decide_eq_true le))
    · intro a b
      simpa using le_total _ _
  have target : ∀ t : TableDef, ∀ edge ∈ t.constraints.filterMap (cascadeEdge t.name),
      edge.2 = t.name := by
    intro t edge mem
    obtain ⟨c, -, same⟩ := List.mem_filterMap.mp mem
    exact (cascade_edge_iff.mp same).1.symm
  rw [keptChildren, stacked, List.pairwise_reverse, childrenOf, List.pairwise_map]
  refine List.Pairwise.filter _ (List.pairwise_flatMap.mpr ⟨fun t _ => ?_, ?_⟩)
  · exact List.pairwise_of_forall_mem_list fun edge mem edge' mem' => by
      rw [target t edge mem, target t edge' mem']
  · refine tables.imp fun le edge mem edge' mem' => ?_
    rwa [target _ edge mem, target _ edge' mem']

/-- Every forest that may be grown is grown on some listing. -/
theorem listing_of_forest {forest : Forest String}
    (grown : Grown (addedChildren plan) (KeptStep baseline) start [start] forest) :
    (dfsCascade (buildCascadeGraph (listingOf baseline forest) plan) start).1 = forest.height := by
  have ascending : forest.nodes.Pairwise fun v w =>
      forest.nodes.idxOf v < forest.nodes.idxOf w := by
    rw [List.pairwise_iff_getElem]
    intro i j short short' less
    rwa [grown.fresh.1.idxOf_getElem, grown.fresh.1.idxOf_getElem]
  have ordered := grown.ordered (stacked_graph (listingOf baseline forest) plan)
    (fun u w => kept_child_iff.trans (kept_step_relisted (relisted_listing baseline forest) u w))
    forest.nodes.idxOf (listing_sorted baseline forest) ascending
  obtain ⟨forest', grown', high⟩ :=
    search_grown (buildCascadeGraph (listingOf baseline forest) plan) start
  rw [dfsCascade, ← high, ordered.unique grown']

theorem added_or_kept_listed (baseline : List TableDef) (plan : MigrationPlan) (u w : String)
    (child : Child (addedChildren plan) (KeptStep baseline) u w) :
    w ∈ (buildCascadeGraph baseline plan).map (·.2) := by
  have stacked_mem : w ∈ stacked (buildCascadeGraph baseline plan) u := by
    rw [stacked_graph, List.mem_append, kept_child_iff]
    exact child
  rw [stacked, List.mem_reverse, childrenOf] at stacked_mem
  exact List.map_subset _ (List.filter_subset_self _) stacked_mem

theorem depth_le (settled : DepthSettled baseline plan start) {forest forest' : Forest String}
    (grown : Grown (addedChildren plan) (KeptStep baseline) start [start] forest)
    (grown' : Grown (addedChildren plan) (KeptStep baseline) start [start] forest') :
    forest.height ≤ forest'.height := by
  obtain ⟨ahead, way, long, -⟩ := grown.way (underway_start start)
  exact long ▸ settled forest' ahead grown' way

theorem depth_settled_iff (baseline : List TableDef) (plan : MigrationPlan) (start : String) :
    DepthSettled baseline plan start ↔ ∀ baseline', Relisted baseline baseline' →
      (dfsCascade (buildCascadeGraph baseline plan) start).1 =
        (dfsCascade (buildCascadeGraph baseline' plan) start).1 := by
  constructor
  · intro settled baseline' relisted
    obtain ⟨forest, grown, high⟩ := forest_of_listing (relisted_refl baseline) plan start
    obtain ⟨forest', grown', high'⟩ := forest_of_listing relisted plan start
    rw [← high, ← high']
    exact le_antisymm (depth_le settled grown grown') (depth_le settled grown' grown)
  · intro alike forest ahead grown way
    obtain ⟨higher, grown', high⟩ := way.grown (added_or_kept_listed baseline plan)
      (underway_start start) way.fresh
    calc ahead.length ≤ higher.height := high
      _ = (dfsCascade (buildCascadeGraph baseline plan) start).1 := by
        rw [← listing_of_forest grown', alike _ (relisted_listing baseline higher)]
      _ = forest.height := by
        rw [← listing_of_forest grown, alike _ (relisted_listing baseline forest)]

end Listings

/-- What a warning says apart from the order of the reached tables. -/
def CascadeReachWarning.relisted (w : CascadeReachWarning) :=
  (w.actionIndex, w.originChildTable, w.originColumns, w.parentTable, w.depth, w.maxFanout,
    w.riskLevel)

theorem warning_relisted {baseline baseline' : List TableDef} {plan : MigrationPlan}
    (relisted : Relisted baseline baseline') {action : MigrationAction}
    (settled : ∀ edge, addedEdge action = some edge → DepthSettled baseline plan edge.1)
    (idx : Nat) :
    (cascadeWarning (buildCascadeGraph baseline plan) idx action).map (·.relisted) =
      (cascadeWarning (buildCascadeGraph baseline' plan) idx action).map (·.relisted) := by
  unfold cascadeWarning
  split
  · rename_i table name columns refTable refColumns onUpdate orphanStrategy
    have depth := (depth_settled_iff baseline plan refTable).mp (settled (refTable, table) rfl)
      baseline' relisted
    have fanout := @fanout_perm _ _ _ refTable _ (graph_perm relisted plan)
    simp only [dfsCascade] at depth
    simp only [dfsCascade, depth, fanout, Option.map_map]
    rfl
  · rfl

theorem warnings_relisted {baseline baseline' : List TableDef} {plan : MigrationPlan}
    (relisted : Relisted baseline baseline')
    (settled : ∀ action ∈ plan.actions, ∀ edge, addedEdge action = some edge →
      DepthSettled baseline plan edge.1) :
    (findCascadeReachViolations plan baseline).map (·.relisted) =
      (findCascadeReachViolations plan baseline').map (·.relisted) := by
  simp only [findCascadeReachViolations, List.map_filterMap]
  refine List.filterMap_congr fun entry mem => ?_
  have listed : entry.1 ∈ plan.actions := List.fst_mem_of_mem_zipIdx mem
  exact warning_relisted relisted (settled entry.1 listed) entry.2

/-- The reached tables are exact and the largest number of children does not depend on the
    listing; the depth, and with it the risk, does not just where it is settled. -/
theorem cascade_reach_iff (baseline : List TableDef) (plan : MigrationPlan) (start : String) :
    ((dfsCascade (buildCascadeGraph baseline plan) start).2.1.Nodup ∧
      (∀ t, t ∈ (dfsCascade (buildCascadeGraph baseline plan) start).2.1 ↔
        t ≠ start ∧ CascadesTo baseline plan start t) ∧
      ∀ baseline', Relisted baseline baseline' →
        (dfsCascade (buildCascadeGraph baseline plan) start).1 =
            (dfsCascade (buildCascadeGraph baseline' plan) start).1 ∧
          (dfsCascade (buildCascadeGraph baseline plan) start).2.2 =
            (dfsCascade (buildCascadeGraph baseline' plan) start).2.2 ∧
          classifyRisk (dfsCascade (buildCascadeGraph baseline plan) start).1
              (dfsCascade (buildCascadeGraph baseline plan) start).2.2 =
            classifyRisk (dfsCascade (buildCascadeGraph baseline' plan) start).1
              (dfsCascade (buildCascadeGraph baseline' plan) start).2.2) ↔
      DepthSettled baseline plan start := by
  rw [depth_settled_iff]
  constructor
  · rintro ⟨-, -, alike⟩ baseline' relisted
    exact (alike baseline' relisted).1
  · intro depth
    obtain ⟨nodup, reached⟩ := reached_spec (buildCascadeGraph baseline plan) start
    refine ⟨nodup, fun t => (reached t).trans (and_congr_right fun _ => edges_reach_iff),
      fun baseline' relisted => ?_⟩
    have fanout := @fanout_perm _ _ _ start _ (graph_perm relisted plan)
    exact ⟨depth baseline' relisted, fanout,
      congrArg₂ classifyRisk (depth baseline' relisted) fanout⟩

def cascadingKey (parent : String) : TableConstraint :=
  .foreignKey none [parent ++ "_id"] parent ["id"] (some .cascade) none .deleteOrphans

def keyedTable (name : String) (parents : List String) : TableDef :=
  ⟨name, none, [], parents.map cascadingKey⟩

def shopPlan : MigrationPlan := ⟨"", none, none, 2, [.addConstraint "shop" (cascadingKey "owner")]⟩

/-- `item` is reached from `shop` directly, and through `shelf`. -/
theorem depth_follows_listing :
    Relisted [keyedTable "owner" [], keyedTable "shop" [], keyedTable "shelf" ["shop"],
        keyedTable "item" ["shop", "shelf"]]
      [keyedTable "owner" [], keyedTable "shop" [], keyedTable "item" ["shop", "shelf"],
        keyedTable "shelf" ["shop"]] ∧
    findCascadeReachViolations shopPlan
      [keyedTable "owner" [], keyedTable "shop" [], keyedTable "shelf" ["shop"],
        keyedTable "item" ["shop", "shelf"]] = [] ∧
    findCascadeReachViolations shopPlan
      [keyedTable "owner" [], keyedTable "shop" [], keyedTable "item" ["shop", "shelf"],
        keyedTable "shelf" ["shop"]] =
      [⟨0, "shop", ["owner_id"], "owner", 3, ["shop", "shelf", "item"], 2, .deep⟩] := by
  refine ⟨⟨_, ?_, List.forall₂_same.mpr fun t _ => ⟨rfl, .refl _⟩⟩, by decide, by decide⟩
  exact .cons _ (.cons _ (.swap _ _ _))

end Vespertide
