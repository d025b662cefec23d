import Mathlib.Data.List.Basic
import Mathlib.Data.List.Dedup
import Mathlib.Data.List.Perm.Subperm
import Mathlib.Data.Set.Finite.List
import Mathlib.Order.WellFoundedSet

/-!
Kahn's ready order over a dependency table: names paired with the set of names
they depend on. Names become ready when the last of their dependencies has been
taken from the queue; the members of a cycle never do.
-/
namespace ReadyOrder
variable {α : Type} [DecidableEq α]

abbrev Dependencies (α : Type) := List (α × List α)

def dependenciesOf (deps : Dependencies α) (n : α) : List α := (deps.lookup n).getD []

structure State (α : Type) where
  inDegree : α → Nat
  queue : List α
  order : List α

def start (deps : Dependencies α) : State α where
  inDegree n := (dependenciesOf deps n).length
  queue := (deps.filter (·.2.length = 0)).map (·.1)
  order := []

/-- Taking `n`: every dependent loses one degree, the ones reaching zero follow. -/
def take (deps : Dependencies α) (s : State α) (n : α) (queue : List α) : State α where
  inDegree d := if n ∈ dependenciesOf deps d then s.inDegree d - 1 else s.inDegree d
  queue := queue ++ (deps.filter fun d => n ∈ d.2 ∧ s.inDegree d.1 - 1 = 0).map (·.1)
  order := s.order ++ [n]

def run (deps : Dependencies α) : Nat → State α → State α
  | 0, s => s
  | fuel + 1, s =>
      match s.queue with
      | [] => s
      | n :: queue => run deps fuel (take deps s n queue)

/-- Every name enters the queue at most once, so the number of names is fuel enough. -/
def kahnReadyOrder (deps : Dependencies α) : List α := (run deps deps.length (start deps)).order

/-! What a dependency table has to satisfy, and what a state of the run satisfies -/

structure Proper (deps : Dependencies α) : Prop where
  names_nodup : (deps.map Prod.fst).Nodup
  sets_nodup : ∀ d ∈ deps, d.2.Nodup
  closed : ∀ d ∈ deps, ∀ x ∈ d.2, x ∈ deps.map Prod.fst

def DependenciesFirst (deps : Dependencies α) (order : List α) : Prop :=
  ∀ before n after, order = before ++ n :: after → ∀ x ∈ dependenciesOf deps n, x ∈ before

structure Consistent (deps : Dependencies α) (s : State α) : Prop where
  nodup : (s.order ++ s.queue).Nodup
  known : ∀ n ∈ s.order ++ s.queue, n ∈ deps.map Prod.fst
  degree : ∀ d ∈ deps, s.inDegree d.1 = (d.2.filter (· ∉ s.order)).length
  ready : ∀ d ∈ deps, d.1 ∈ s.order ++ s.queue ↔ ∀ x ∈ d.2, x ∈ s.order
  first : DependenciesFirst deps s.order

theorem dependencies_of_mem {deps : Dependencies α} (unique : (deps.map Prod.fst).Nodup)
    {d : α × List α} (mem : d ∈ deps) : dependenciesOf deps d.1 = d.2 := by
  unfold dependenciesOf
  induction deps with
  | nil => cases mem
  | cons head deps ih =>
    obtain ⟨fresh, rest⟩ := List.nodup_cons.mp unique
    obtain ⟨k, listed⟩ := head
    rcases List.mem_cons.mp mem with here | later
    · subst here
      simp
    · have other : d.1 ≠ k := by
        intro same
        exact fresh (List.mem_map.mpr ⟨d, later, same⟩)
      simpa [List.lookup_cons, beq_false_of_ne other] using ih rest later

theorem start_consistent {deps : Dependencies α} (proper : Proper deps) :
    Consistent deps (start deps) := by
  constructor
  · exact (proper.names_nodup).sublist (List.filter_sublist.map _)
  · intro n mem
    exact (List.filter_sublist.map _).subset mem
  · intro d mem
    simp [start, dependencies_of_mem proper.names_nodup mem]
  · intro d mem
    simp only [start, List.nil_append, List.mem_map, List.mem_filter, List.not_mem_nil]
    constructor
    · rintro ⟨e, ⟨listed, empty⟩, same⟩
      have equal : e = d := List.inj_on_of_nodup_map proper.names_nodup listed mem same
      subst equal
      have none_left : e.2 = [] := List.length_eq_zero_iff.mp (by simpa using empty)
      simp [none_left]
    · intro nothing
      have none_left : d.2 = [] := List.eq_nil_iff_forall_not_mem.mpr nothing
      exact ⟨d, ⟨mem, by simp [none_left]⟩, rfl⟩
  · intro before n after split
    simp [start] at split

theorem length_filter_taken {xs order : List α} {n : α} (set : xs.Nodup) (fresh : n ∉ order) :
    (xs.filter (· ∉ order ++ [n])).length
      = if n ∈ xs then (xs.filter (· ∉ order)).length - 1 else (xs.filter (· ∉ order)).length := by
  have shape : xs.filter (· ∉ order ++ [n]) = (xs.filter (· ∉ order)).erase n := by
    rw [(set.filter _).erase_eq_filter, List.filter_filter]
    apply List.filter_congr
    intro x _
    by_cases taken : x = n <;> by_cases old : x ∈ order <;> simp [taken, old]
  rw [shape, List.length_erase]
  simp [List.mem_filter, fresh]

theorem take_consistent {deps : Dependencies α} (proper : Proper deps) {s : State α} {n : α}
    {queue : List α} (consistent : Consistent deps s) (head : s.queue = n :: queue) :
    Consistent deps (take deps s n queue) := by
  obtain ⟨nodup, known, degree, ready, first⟩ := consistent
  rw [head] at nodup known ready
  have fresh : n ∉ s.order := by
    intro there
    exact List.disjoint_of_nodup_append nodup there List.mem_cons_self
  have taken_degree : ∀ d ∈ deps, (take deps s n queue).inDegree d.1
      = (d.2.filter (· ∉ s.order ++ [n])).length := by
    intro d mem
    rw [length_filter_taken (proper.sets_nodup d mem) fresh, ← degree d mem]
    simp [take, dependencies_of_mem proper.names_nodup mem]
  have not_yet : ∀ d ∈ deps, n ∈ d.2 → d.1 ∉ s.order ++ n :: queue := by
    intro d mem needs there
    exact fresh ((ready d mem).mp there n needs)
  have freed : ∀ d ∈ deps, (n ∈ d.2 ∧ s.inDegree d.1 - 1 = 0) ↔
      n ∈ d.2 ∧ ∀ x ∈ d.2, x ∈ s.order ++ [n] := by
    intro d mem
    refine and_congr_right fun needs => ?_
    have now := taken_degree d mem
    simp only [take, dependencies_of_mem proper.names_nodup mem, if_pos needs] at now
    rw [now, List.length_eq_zero_iff, List.filter_eq_nil_iff]
    simp only [decide_eq_true_eq, not_not]
  constructor
  · have regroup : s.order ++ [n] ++ queue = s.order ++ n :: queue := by simp
    simp only [take]
    rw [← List.append_assoc, regroup, List.nodup_append]
    refine ⟨nodup, (proper.names_nodup).sublist (List.filter_sublist.map _), ?_⟩
    intro a old b new same
    obtain ⟨d, mem, rfl⟩ := List.mem_map.mp new
    obtain ⟨listed, needs⟩ := List.mem_filter.mp mem
    simp only [decide_eq_true_eq] at needs
    exact not_yet d listed needs.1 (same ▸ old)
  · intro m mem
    simp only [take, List.mem_append, List.mem_singleton, List.mem_map, List.mem_filter] at mem
    rcases mem with (old | rfl) | later | ⟨d, ⟨listed, _⟩, rfl⟩
    · exact known m (List.mem_append_left _ old)
    · exact known m (List.mem_append_right _ List.mem_cons_self)
    · exact known m (List.mem_append_right _ (List.mem_cons_of_mem n later))
    · exact List.mem_map_of_mem listed
  · exact taken_degree
  · intro d mem
    have before := ready d mem
    have new : d.1 ∈ (deps.filter fun d => n ∈ d.2 ∧ s.inDegree d.1 - 1 = 0).map (·.1)
        ↔ n ∈ d.2 ∧ ∀ x ∈ d.2, x ∈ s.order ++ [n] := by
      rw [← freed d mem]
      constructor
      · intro there
        obtain ⟨e, listed, same⟩ := List.mem_map.mp there
        obtain ⟨listed, holds⟩ := List.mem_filter.mp listed
        have equal : e = d := List.inj_on_of_nodup_map proper.names_nodup listed mem same
        subst equal
        simpa using holds
      · intro holds
        exact List.mem_map.mpr ⟨d, List.mem_filter.mpr ⟨mem, by simpa using holds⟩, rfl⟩
    have old : d.1 ∈ s.order ++ [n] ++ queue ↔ ∀ x ∈ d.2, x ∈ s.order := by
      rw [← before]
      simp
    simp only [take]
    rw [← List.append_assoc, List.mem_append, old, new]
    constructor
    · rintro (all | ⟨_, all⟩)
      · intro x inside
        exact List.mem_append_left _ (all x inside)
      · exact all
    · intro all
      by_cases needs : n ∈ d.2
      · exact Or.inr ⟨needs, all⟩
      · left
        intro x inside
        rcases List.mem_append.mp (all x inside) with there | here
        · exact there
        · rw [List.mem_singleton.mp here] at inside
          exact absurd inside needs
  · intro before m after split x needed
    simp only [take] at split
    rcases List.eq_nil_or_concat after with rfl | ⟨rest, last, rfl⟩
    · obtain ⟨same, last⟩ := List.append_inj' split rfl
      obtain rfl : n = m := by simpa using last
      obtain ⟨d, mem, rfl⟩ := List.mem_map.mp
        (known n (List.mem_append_right _ List.mem_cons_self))
      rw [dependencies_of_mem proper.names_nodup mem] at needed
      rw [← same]
      exact (ready d mem).mp (List.mem_append_right _ List.mem_cons_self) x needed
    · have regroup : before ++ m :: (rest ++ [last]) = (before ++ m :: rest) ++ [last] := by simp
      rw [List.concat_eq_append, regroup] at split
      exact first before m rest (List.append_inj' split rfl).1 x needed

theorem run_consistent {deps : Dependencies α} (proper : Proper deps) (fuel : Nat) {s : State α}
    (consistent : Consistent deps s) : Consistent deps (run deps fuel s) := by
  induction fuel generalizing s with
  | zero => exact consistent
  | succ fuel ih =>
    unfold run
    split
    · exact consistent
    · exact ih (take_consistent proper consistent (by assumption))

theorem run_drains {deps : Dependencies α} (proper : Proper deps) (fuel : Nat) {s : State α}
    (consistent : Consistent deps s) (enough : deps.length ≤ s.order.length + fuel) :
    (run deps fuel s).queue = [] := by
  induction fuel generalizing s with
  | zero =>
    have within : (s.order ++ s.queue).length ≤ (deps.map Prod.fst).length :=
      (consistent.nodup.subperm consistent.known).length_le
    rw [List.length_append, List.length_map] at within
    exact List.length_eq_zero_iff.mp (by simp only [run]; omega)
  | succ fuel ih =>
    unfold run
    split
    · assumption
    · apply ih (take_consistent proper consistent (by assumption))
      simp only [take, List.length_append, List.length_singleton]
      omega

/-! The resulting order -/

theorem kahn_nodup {deps : Dependencies α} (proper : Proper deps) :
    (kahnReadyOrder deps).Nodup :=
  (List.nodup_append.mp (run_consistent proper _ (start_consistent proper)).nodup).1

theorem kahn_known {deps : Dependencies α} (proper : Proper deps) {n : α}
    (mem : n ∈ kahnReadyOrder deps) : n ∈ deps.map Prod.fst :=
  (run_consistent proper _ (start_consistent proper)).known n (List.mem_append_left _ mem)

theorem kahn_dependencies_first {deps : Dependencies α} (proper : Proper deps) :
    DependenciesFirst deps (kahnReadyOrder deps) :=
  (run_consistent proper _ (start_consistent proper)).first

theorem kahn_ready {deps : Dependencies α} (proper : Proper deps) {d : α × List α}
    (mem : d ∈ deps) : d.1 ∈ kahnReadyOrder deps ↔ ∀ x ∈ d.2, x ∈ kahnReadyOrder deps := by
  have consistent := run_consistent proper deps.length (start_consistent proper)
  have drained : (run deps deps.length (start deps)).queue = [] :=
    run_drains proper _ (start_consistent proper) (by omega)
  have ready := consistent.ready d mem
  rwa [drained, List.append_nil] at ready

theorem kahn_pairwise {deps : Dependencies α} (proper : Proper deps) :
    (kahnReadyOrder deps).Pairwise fun a b => b ∉ dependenciesOf deps a := by
  refine List.pairwise_iff_getElem.mpr fun i j hi hj earlier needed => ?_
  have split := (List.take_append_drop i (kahnReadyOrder deps)).symm
  rw [List.drop_eq_getElem_cons hi] at split
  have taken := kahn_dependencies_first proper _ _ _ split _ needed
  obtain ⟨m, hm, same⟩ := List.mem_take_iff_getElem.mp taken
  have collide := (kahn_nodup proper).getElem_inj_iff.mp same
  omega

/-! The names that are placed -/

def DependsOn (deps : Dependencies α) (x n : α) : Prop := ∃ d ∈ deps, d.1 = n ∧ x ∈ d.2

def Acyclic (deps : Dependencies α) : Prop := ∀ n, ¬ Relation.TransGen (DependsOn deps) n n

/-- On a cycle, or dependent on one. -/
def BehindCycle (deps : Dependencies α) (n : α) : Prop :=
  ∃ z, Relation.TransGen (DependsOn deps) z z ∧ Relation.ReflTransGen (DependsOn deps) z n

theorem kahn_before {deps : Dependencies α} (proper : Proper deps) {x n : α}
    (placed : n ∈ kahnReadyOrder deps) (needs : DependsOn deps x n) :
    x ∈ kahnReadyOrder deps ∧ (kahnReadyOrder deps).idxOf x < (kahnReadyOrder deps).idxOf n := by
  obtain ⟨d, mem, rfl, needed⟩ := needs
  refine ⟨(kahn_ready proper mem).mp placed x needed, ?_⟩
  set order := kahnReadyOrder deps
  have bound := List.idxOf_lt_length_of_mem placed
  have split : order = order.take (order.idxOf d.1) ++ d.1 :: order.drop (order.idxOf d.1 + 1) := by
    have parts := (List.take_append_drop (order.idxOf d.1) order).symm
    rwa [List.drop_eq_getElem_cons bound, List.getElem_idxOf bound] at parts
  have earlier : x ∈ order.take (order.idxOf d.1) :=
    kahn_dependencies_first proper _ _ _ split x
      (by rwa [dependencies_of_mem proper.names_nodup mem])
  have within := List.idxOf_lt_length_of_mem earlier
  rw [List.length_take] at within
  have same : order.idxOf x = (order.take (order.idxOf d.1)).idxOf x := by
    conv_lhs => rw [split, List.idxOf_append_of_mem earlier]
  omega

theorem kahn_before_all {deps : Dependencies α} (proper : Proper deps) {x n : α}
    (needs : Relation.TransGen (DependsOn deps) x n) (placed : n ∈ kahnReadyOrder deps) :
    x ∈ kahnReadyOrder deps ∧ (kahnReadyOrder deps).idxOf x < (kahnReadyOrder deps).idxOf n := by
  induction needs with
  | single first => exact kahn_before proper placed first
  | tail _ last ih =>
    obtain ⟨there, next⟩ := kahn_before proper placed last
    obtain ⟨x_placed, earlier⟩ := ih there
    exact ⟨x_placed, earlier.trans next⟩

omit [DecidableEq α] in
theorem before_cycles_wellFoundedOn (deps : Dependencies α) :
    Set.WellFoundedOn {n | n ∈ deps.map Prod.fst}
      (fun x n => Relation.TransGen (DependsOn deps) x n ∧ ¬ BehindCycle deps n) := by
  have strict : IsStrictOrder α
      (fun x n => Relation.TransGen (DependsOn deps) x n ∧ ¬ BehindCycle deps n) :=
    { irrefl := fun n ⟨cycle, apart⟩ => apart ⟨n, cycle, .refl⟩
      trans := fun _ _ _ first second => ⟨first.1.trans second.1, second.2⟩ }
  exact (List.finite_toSet (deps.map Prod.fst)).wellFoundedOn

/-- What is never placed is on a cycle or depends on one. -/
theorem kahn_placed_iff {deps : Dependencies α} (proper : Proper deps) {n : α}
    (known : n ∈ deps.map Prod.fst) : n ∈ kahnReadyOrder deps ↔ ¬ BehindCycle deps n := by
  constructor
  · rintro placed ⟨z, cycle, ahead⟩
    have z_placed : z ∈ kahnReadyOrder deps := by
      rcases (Relation.reflTransGen_iff_eq_or_transGen.mp ahead) with rfl | chain
      · exact placed
      · exact (kahn_before_all proper chain placed).1
    exact absurd (kahn_before_all proper cycle z_placed).2 (lt_irrefl _)
  · refine (before_cycles_wellFoundedOn deps).induction
      (P := fun n => ¬ BehindCycle deps n → n ∈ kahnReadyOrder deps) known ?_
    intro m listed placed apart
    obtain ⟨d, mem, rfl⟩ := List.mem_map.mp listed
    rw [kahn_ready proper mem]
    intro x needed
    have needs : DependsOn deps x d.1 := ⟨d, mem, rfl, needed⟩
    refine placed x (proper.closed d mem x needed) ⟨.single needs, apart⟩ ?_
    rintro ⟨z, cycle, ahead⟩
    exact apart ⟨z, cycle, ahead.tail needs⟩

theorem kahn_complete {deps : Dependencies α} (proper : Proper deps) (acyclic : Acyclic deps)
    {n : α} (known : n ∈ deps.map Prod.fst) : n ∈ kahnReadyOrder deps :=
  (kahn_placed_iff proper known).mpr fun ⟨z, cycle, _⟩ => acyclic z cycle

theorem acyclic_of_placed {deps : Dependencies α} (proper : Proper deps)
    (placed : ∀ n ∈ deps.map Prod.fst, n ∈ kahnReadyOrder deps) : Acyclic deps := by
  intro n cycle
  obtain ⟨_, _, d, mem, rfl, _⟩ := Relation.TransGen.tail'_iff.mp cycle
  have known := List.mem_map_of_mem (f := Prod.fst) mem
  exact (kahn_placed_iff proper known).mp (placed d.1 known) ⟨d.1, cycle, .refl⟩

end ReadyOrder
