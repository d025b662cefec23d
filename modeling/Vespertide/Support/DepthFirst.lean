import Mathlib.Data.List.Nodup
import Mathlib.Data.List.Perm.Basic
import Mathlib.Logic.Relation
import Mathlib.Order.Lattice

/-!
Depth-first search with a stack, from one node: the nodes it reaches, the number
of hops at which it comes to the deepest one, and the largest number of children.
-/
namespace DepthFirst

variable {α : Type} [DecidableEq α]

/-- The edges are listed in the order in which they were entered. -/
def childrenOf (edges : List (α × α)) (node : α) : List α :=
  (edges.filter (·.1 = node)).map (·.2)

structure Found (α : Type) where
  visited : List α
  reached : List α
  depth : Nat
  fanout : Nat

/-- What a node that was not visited yet adds, at its number of hops. -/
def visit (edges : List (α × α)) (s : Found α) (node : α) (hops : Nat) : Found α where
  visited := node :: s.visited
  reached := if 0 < hops then s.reached ++ [node] else s.reached
  depth := if 0 < hops then max s.depth hops else s.depth
  fanout := max s.fanout (childrenOf edges node).length

/-- The head of the list is the top of the stack. -/
def run (edges : List (α × α)) : Nat → Found α → List (α × Nat) → Found α
  | 0, s, _ => s
  | _ + 1, s, [] => s
  | fuel + 1, s, (node, hops) :: stack =>
      if node ∈ s.visited then run edges fuel s stack
      else
        run edges fuel (visit edges s node hops)
          (((childrenOf edges node).map (·, hops + 1)).reverse ++ stack)

/-- Every edge is put on the stack at most once. -/
def search (edges : List (α × α)) (start : α) : Found α :=
  run edges (edges.length + 1) ⟨[], [], 0, 0⟩ [(start, 0)]

def Reaches (edges : List (α × α)) : α → α → Prop :=
  Relation.ReflTransGen fun u w => w ∈ childrenOf edges u

section Search
variable {edges : List (α × α)} {start : α}

/-! Invariant -/

/-- What holds from the visit of the start on. -/
structure Searching (edges : List (α × α)) (start : α) (s : Found α) (stack : List (α × Nat)) :
    Prop where
  listed : s.visited.reverse = start :: s.reached
  distinct : s.visited.Nodup
  seen : ∀ v ∈ s.visited, Reaches edges start v
  waiting : ∀ e ∈ stack, Reaches edges start e.1 ∧ 0 < e.2
  closed : ∀ u ∈ s.visited, ∀ w ∈ childrenOf edges u, w ∈ s.visited ∨ ∃ e ∈ stack, e.1 = w
  narrow : ∀ v ∈ s.visited, (childrenOf edges v).length ≤ s.fanout
  widest : ∃ v ∈ s.visited, (childrenOf edges v).length = s.fanout

theorem Searching.start_mem {s : Found α} {stack : List (α × Nat)}
    (inv : Searching edges start s stack) : start ∈ s.visited := by
  rw [← List.mem_reverse, inv.listed]
  exact List.mem_cons_self

theorem searching_first :
    Searching edges start (visit edges ⟨[], [], 0, 0⟩ start 0)
      (((childrenOf edges start).map (·, 1)).reverse ++ []) where
  listed := rfl
  distinct := List.nodup_singleton start
  seen := by
    intro v mem
    obtain rfl := List.mem_singleton.mp mem
    exact .refl
  waiting := by
    intro e mem
    simp only [List.append_nil, List.mem_reverse, List.mem_map] at mem
    obtain ⟨w, next, rfl⟩ := mem
    exact ⟨.single next, Nat.one_pos⟩
  closed := by
    intro u mem w next
    obtain rfl := List.mem_singleton.mp mem
    exact .inr ⟨(w, 1), by simp [next], rfl⟩
  narrow := by
    intro v mem
    obtain rfl := List.mem_singleton.mp mem
    exact le_max_right _ _
  widest := ⟨start, List.mem_singleton_self start, (Nat.zero_max _).symm⟩

theorem searching_skip {s : Found α} {e : α × Nat} {stack : List (α × Nat)}
    (inv : Searching edges start s (e :: stack)) (old : e.1 ∈ s.visited) :
    Searching edges start s stack :=
  { inv with
    waiting := fun e mem => inv.waiting e (List.mem_cons_of_mem _ mem)
    closed := by
      intro u mem w next
      obtain seen | ⟨e', here, rfl⟩ := inv.closed u mem w next
      · exact .inl seen
      · obtain rfl | later := List.mem_cons.mp here
        · exact .inl old
        · exact .inr ⟨e', later, rfl⟩ }

theorem searching_visit {s : Found α} {node : α} {hops : Nat} {stack : List (α × Nat)}
    (inv : Searching edges start s ((node, hops) :: stack)) (new : node ∉ s.visited) :
    Searching edges start (visit edges s node hops)
      (((childrenOf edges node).map (·, hops + 1)).reverse ++ stack) := by
  obtain ⟨reached, positive⟩ := inv.waiting _ List.mem_cons_self
  constructor
  · simp [visit, inv.listed, if_pos positive]
  · exact List.nodup_cons.mpr ⟨new, inv.distinct⟩
  · intro v mem
    obtain rfl | seen := List.mem_cons.mp mem
    · exact reached
    · exact inv.seen v seen
  · intro e mem
    simp only [List.mem_append, List.mem_reverse, List.mem_map] at mem
    obtain ⟨w, child, rfl⟩ | later := mem
    · exact ⟨reached.tail child, Nat.succ_pos hops⟩
    · exact inv.waiting e (List.mem_cons_of_mem _ later)
  · intro x mem w child
    obtain rfl | seen := List.mem_cons.mp mem
    · have pushed := List.mem_map_of_mem (f := (·, hops + 1)) child
      exact .inr ⟨_, List.mem_append_left _ (List.mem_reverse.mpr pushed), rfl⟩
    · obtain old | ⟨e, held, rfl⟩ := inv.closed x seen w child
      · exact .inl (List.mem_cons_of_mem _ old)
      · obtain rfl | later := List.mem_cons.mp held
        · exact .inl List.mem_cons_self
        · exact .inr ⟨e, List.mem_append_right _ later, rfl⟩
  · intro v mem
    obtain rfl | seen := List.mem_cons.mp mem
    · exact le_max_right _ _
    · exact (inv.narrow v seen).trans (le_max_left _ _)
  · obtain wider | same := le_total s.fanout (childrenOf edges node).length
    · exact ⟨node, List.mem_cons_self, (max_eq_right wider).symm⟩
    · obtain ⟨v, seen, count⟩ := inv.widest
      exact ⟨v, List.mem_cons_of_mem _ seen, count.trans (max_eq_left same).symm⟩

/-! Runs -/

/-- The entries that may still be taken from the stack. -/
def remaining (edges : List (α × α)) (s : Found α) (stack : List (α × Nat)) : Nat :=
  stack.length + (edges.filter fun e => e.1 ∉ s.visited).length

theorem remaining_visit {s : Found α} {node : α} {hops : Nat} {stack : List (α × Nat)}
    (new : node ∉ s.visited) :
    remaining edges (visit edges s node hops)
        (((childrenOf edges node).map (·, hops + 1)).reverse ++ stack) + 1 =
      remaining edges s ((node, hops) :: stack) := by
  have split : (childrenOf edges node).length +
      (edges.filter fun e => e.1 ∉ node :: s.visited).length =
        (edges.filter fun e => e.1 ∉ s.visited).length := by
    rw [childrenOf, List.length_map]
    induction edges with
    | nil => rfl
    | cons e edges ih =>
      by_cases here : e.1 = node
      · have unseen : e.1 ∉ s.visited := here ▸ new
        simp [here, new] at ih ⊢
        omega
      · by_cases seen : e.1 ∈ s.visited
        · simp [here, seen] at ih ⊢
          omega
        · simp [here, seen] at ih ⊢
          omega
  have same : (edges.filter fun e => e.1 ∉ (visit edges s node hops).visited).length =
      (edges.filter fun e => e.1 ∉ node :: s.visited).length := rfl
  rw [remaining, remaining, List.length_append, List.length_reverse, List.length_map,
    List.length_cons, same]
  omega

theorem run_searching {fuel : Nat} {s : Found α} {stack : List (α × Nat)}
    (inv : Searching edges start s stack) (enough : remaining edges s stack ≤ fuel) :
    Searching edges start (run edges fuel s stack) [] := by
  induction fuel generalizing s stack with
  | zero =>
    have empty : stack = [] := by
      rw [remaining] at enough
      exact List.length_eq_zero_iff.mp (by omega)
    subst empty
    exact inv
  | succ fuel ih =>
    match stack with
    | [] => exact inv
    | (node, hops) :: stack =>
      rw [run]
      split
      · rename_i old
        refine ih (searching_skip inv old) ?_
        simp only [remaining, List.length_cons] at enough ⊢
        omega
      · rename_i new
        have fewer := @remaining_visit _ _ edges _ node hops stack new
        exact ih (searching_visit inv new) (by omega)

/-! Results -/

theorem search_searching (edges : List (α × α)) (start : α) :
    Searching edges start (search edges start) [] := by
  rw [search, run, if_neg List.not_mem_nil]
  refine run_searching searching_first ?_
  have fewer := @remaining_visit _ _ edges ⟨[], [], 0, 0⟩ start 0 [] List.not_mem_nil
  have all : remaining edges (⟨[], [], 0, 0⟩ : Found α) [(start, 0)] = edges.length + 1 := by
    simp [remaining, Nat.add_comm]
  omega

theorem visited_iff {v : α} : v ∈ (search edges start).visited ↔ Reaches edges start v := by
  have inv := search_searching edges start
  constructor
  · exact inv.seen v
  · intro reaches
    induction reaches with
    | refl => exact inv.start_mem
    | tail reached next ih =>
      obtain seen | ⟨e, none, -⟩ := inv.closed _ ih _ next
      · exact seen
      · cases none

theorem reached_spec (edges : List (α × α)) (start : α) :
    (search edges start).reached.Nodup ∧
      ∀ v, v ∈ (search edges start).reached ↔ v ≠ start ∧ Reaches edges start v := by
  have inv := search_searching edges start
  have distinct : (start :: (search edges start).reached).Nodup := by
    rw [← inv.listed]
    exact List.nodup_reverse.mpr inv.distinct
  obtain ⟨absent, nodup⟩ := List.nodup_cons.mp distinct
  refine ⟨nodup, fun v => ?_⟩
  have listed : v ∈ (search edges start).visited ↔
      v = start ∨ v ∈ (search edges start).reached := by
    rw [← List.mem_reverse, inv.listed, List.mem_cons]
  rw [← visited_iff, listed]
  constructor
  · intro mem
    exact ⟨fun same => absent (same ▸ mem), .inr mem⟩
  · rintro ⟨other, same | mem⟩
    · exact absurd same other
    · exact mem

/-! Relisted edges -/

theorem children_perm {edges' : List (α × α)} (perm : edges.Perm edges') (node : α) :
    (childrenOf edges node).Perm (childrenOf edges' node) :=
  (perm.filter _).map _

theorem reaches_perm {edges' : List (α × α)} (perm : edges.Perm edges') {u v : α} :
    Reaches edges u v ↔ Reaches edges' u v := by
  have same : (fun u w => w ∈ childrenOf edges u) = fun u w => w ∈ childrenOf edges' u := by
    funext u w
    exact propext (children_perm perm u).mem_iff
  rw [Reaches, Reaches, same]

theorem fanout_le_perm {edges' : List (α × α)} (perm : edges.Perm edges') :
    (search edges start).fanout ≤ (search edges' start).fanout := by
  obtain ⟨v, mem, count⟩ := (search_searching edges start).widest
  have reached := visited_iff.mpr ((reaches_perm perm).mp (visited_iff.mp mem))
  rw [← count, (children_perm perm v).length_eq]
  exact (search_searching edges' start).narrow v reached

theorem fanout_perm {edges' : List (α × α)} (perm : edges.Perm edges') :
    (search edges start).fanout = (search edges' start).fanout :=
  le_antisymm (fanout_le_perm perm) (fanout_le_perm perm.symm)

end Search

end DepthFirst
