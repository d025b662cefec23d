import Vespertide.Ordering

/-!
The order in which tables are dropped. The swaps put the drop slots into the
sorted order and leave every other slot alone; without a reference cycle among
the dropped tables, each is dropped before the tables it references.
-/
namespace Vespertide
open Rearrange ReadyOrder

/-! The swaps -/

theorem get_inside {xs : List Nat} {i : Nat} (bound : i < xs.length) : xs.getD i 0 = xs[i] := by
  simp [List.getD_eq_getElem?_getD, bound]

theorem get_set {xs : List Nat} {i : Nat} (bound : i < xs.length) (v j : Nat) :
    (xs.set i v).getD j 0 = if i = j then v else xs.getD j 0 := by
  simp only [List.getD_eq_getElem?_getD, List.getElem?_set, bound, if_true]
  split <;> rfl

theorem get_swapped {xs : List Nat} {i j : Nat} (hi : i < xs.length) (hj : j < xs.length)
    (k : Nat) : (swapAt i j xs).getD k 0 =
      if k = j then xs.getD i 0 else if k = i then xs.getD j 0 else xs.getD k 0 := by
  simp only [List.getD_eq_getElem?_getD, get_swap_at hi hj]
  split
  · rfl
  · split <;> rfl

/-- The books after `dst` destinations: inverse to each other, true to the actions,
    and already in the wanted order below `dst`. -/
structure Placing (actions : List MigrationAction) (order : List Nat) (k dst : Nat)
    (s : SwapState) : Prop where
  origins : s.originAt.length = k
  positions : s.posOf.length = k
  origin_lt : ∀ i < k, s.originAt.getD i 0 < k
  position_lt : ∀ r < k, s.posOf.getD r 0 < k
  origin_position : ∀ r < k, s.originAt.getD (s.posOf.getD r 0) 0 = r
  position_origin : ∀ i < k, s.posOf.getD (s.originAt.getD i 0) 0 = i
  placed : ∀ i < dst, s.originAt.getD i 0 = order.getD i 0
  held : ∀ i, s.actions[i]? = if i < k then actions[s.originAt.getD i 0]? else actions[i]?

theorem range_get {k i : Nat} (bound : i < k) : (List.range k).getD i 0 = i := by
  simp [List.getD_eq_getElem?_getD, bound]

theorem placing_start (actions : List MigrationAction) (order : List Nat) (k : Nat) :
    Placing actions order k 0 ⟨actions, List.range k, List.range k⟩ := by
  constructor
  · simp
  · simp
  · intro i bound
    rwa [range_get bound]
  · intro r bound
    rwa [range_get bound]
  · intro r bound
    rw [range_get bound, range_get bound]
  · intro i bound
    rw [range_get bound, range_get bound]
  · intro i bound
    omega
  · intro i
    by_cases bound : i < k
    · simp only [bound, if_true, range_get bound]
    · simp only [bound, if_false]

section Step
variable {actions : List MigrationAction} {order : List Nat} {k dst : Nat} {s : SwapState}

theorem order_get_lt (perm : order.Perm (List.range k)) {i : Nat} (bound : i < k) :
    order.getD i 0 < k := by
  have here : i < order.length := by rwa [perm.length_eq, List.length_range]
  rw [get_inside here]
  exact List.mem_range.mp (perm.mem_iff.mp (List.getElem_mem here))

theorem order_get_inj (perm : order.Perm (List.range k)) {i j : Nat} (hi : i < k) (hj : j < k)
    (same : order.getD i 0 = order.getD j 0) : i = j := by
  have length : order.length = k := by rw [perm.length_eq, List.length_range]
  rw [get_inside (by omega), get_inside (by omega)] at same
  exact (perm.nodup_iff.mpr List.nodup_range).getElem_inj_iff.mp same

theorem source_ahead (perm : order.Perm (List.range k)) (bound : dst < k)
    (placing : Placing actions order k dst s) : dst ≤ s.posOf.getD (order.getD dst 0) 0 := by
  by_contra behind
  have want_lt := order_get_lt perm bound
  have there := placing.origin_position _ want_lt
  rw [placing.placed _ (by omega)] at there
  have same := order_get_inj perm (placing.position_lt _ want_lt) bound there
  omega

theorem place_rank (perm : order.Perm (List.range k)) (bound : dst < k) (within : k ≤ actions.length)
    (placing : Placing actions order k dst s) :
    Placing actions order k (dst + 1) (placeRank (List.range k) order s dst) := by
  have want_lt := order_get_lt perm bound
  have ahead := source_ahead perm bound placing
  obtain ⟨origins, positions, origin_lt, position_lt, origin_position, position_origin, placed,
    held⟩ := placing
  have src_lt := position_lt _ want_lt
  have there := origin_position _ want_lt
  simp only [placeRank]
  by_cases same : s.posOf.getD (order.getD dst 0) 0 = dst
  · simp only [same, ne_eq, not_true_eq_false, if_false]
    refine ⟨origins, positions, origin_lt, position_lt, origin_position, position_origin, ?_, held⟩
    intro i below
    rcases Nat.lt_succ_iff_lt_or_eq.mp below with earlier | rfl
    · exact placed i earlier
    · rwa [same] at there
  · simp only [ne_eq, same, not_false_eq_true, if_true, range_get bound, range_get src_lt]
    generalize s.posOf.getD (order.getD dst 0) 0 = src at *
    have displaced_lt := origin_lt _ bound
    have apart : s.originAt.getD dst 0 ≠ order.getD dst 0 := by
      intro equal
      have back := position_origin _ bound
      have forth := position_origin _ src_lt
      rw [there, ← equal, back] at forth
      exact same forth.symm
    have origin_get := get_swapped (show dst < s.originAt.length by omega)
      (show src < s.originAt.length by omega)
    have position_get : ∀ r, ((s.posOf.set (order.getD dst 0) dst).set
        (s.originAt.getD dst 0) src).getD r 0 = if s.originAt.getD dst 0 = r then src
          else if order.getD dst 0 = r then dst else s.posOf.getD r 0 := by
      intro r
      rw [get_set (by simpa [positions] using displaced_lt), get_set (by omega)]
    have slot : ∀ i, i < k → i < s.actions.length := by
      intro i below
      have here := held i
      have inside : s.originAt.getD i 0 < actions.length := by
        have own := origin_lt i below
        omega
      rw [if_pos below, List.getElem?_eq_getElem inside] at here
      exact (List.getElem?_eq_some_iff.mp here).1
    constructor
    · rw [length_swap_at, origins]
    · simp only [List.length_set, positions]
    · intro i below
      rw [origin_get]
      split
      · exact displaced_lt
      · split
        · exact there ▸ want_lt
        · exact origin_lt i below
    · intro r below
      rw [position_get]
      split
      · exact src_lt
      · split
        · exact bound
        · exact position_lt r below
    · intro r below
      rw [position_get]
      split
      · rename_i here
        rw [origin_get, if_pos rfl, here]
      · rename_i other
        split
        · rename_i here
          rw [origin_get, if_neg (Ne.symm same), if_pos rfl, there, here]
        · rename_i unwanted
          have back := origin_position r below
          have not_src : s.posOf.getD r 0 ≠ src := fun equal => unwanted (there ▸ equal ▸ back)
          have not_dst : s.posOf.getD r 0 ≠ dst := fun equal => other (equal ▸ back)
          rw [origin_get, if_neg not_src, if_neg not_dst, back]
    · intro i below
      rw [origin_get]
      split
      · rename_i here
        rw [position_get, if_pos rfl, here]
      · rename_i not_src
        split
        · rename_i here
          rw [there, position_get, if_neg apart, if_pos rfl, here]
        · rename_i not_dst
          have back := position_origin i below
          have not_displaced : s.originAt.getD dst 0 ≠ s.originAt.getD i 0 := by
            intro equal
            rw [← equal, position_origin _ bound] at back
            exact not_dst back.symm
          have not_wanted : order.getD dst 0 ≠ s.originAt.getD i 0 := by
            intro equal
            rw [← equal, ← there, position_origin _ src_lt] at back
            exact not_src back.symm
          rw [position_get, if_neg not_displaced, if_neg not_wanted, back]
    · intro i below
      rw [origin_get]
      rcases Nat.lt_succ_iff_lt_or_eq.mp below with earlier | rfl
      · rw [if_neg (by omega), if_neg (by omega), placed i earlier]
      · rw [if_neg (Ne.symm same), if_pos rfl, there]
    · intro i
      rw [get_swap_at (slot _ bound) (slot _ src_lt), origin_get, held dst, held src, held i,
        if_pos bound, if_pos src_lt]
      by_cases is_src : i = src
      · simp only [is_src, src_lt, if_true]
      · by_cases is_dst : i = dst
        · simp only [is_dst, Ne.symm same, bound, if_true, if_false]
        · simp only [is_src, is_dst, if_false]

theorem place_ranks (perm : order.Perm (List.range k)) (within : k ≤ actions.length) {n : Nat}
    (bound : n ≤ k) : Placing actions order k n
      ((List.range n).foldl (placeRank (List.range k) order) ⟨actions, List.range k, List.range k⟩) := by
  induction n with
  | zero => exact placing_start actions order k
  | succ n ih =>
    rw [List.range_succ, List.foldl_append]
    exact place_rank perm (by omega) within (ih (by omega))

end Step

/-! The order the swaps establish -/

def dropPosition (drops : List String) (allTables : List TableDef) (name : String) : Nat :=
  let sortedTables := (kahnReadyOrder (deletionDependencies drops allTables)).reverse
  if name ∈ sortedTables then sortedTables.idxOf name else 0

def dropOrder (drops : List String) (allTables : List TableDef) : List String :=
  drops.insertionSort fun a b => dropPosition drops allTables a ≤ dropPosition drops allTables b

theorem drop_order_perm (drops : List String) (allTables : List TableDef) :
    (dropOrder drops allTables).Perm drops := List.perm_insertionSort _ _

/-! Drops put into the slots of the drops -/

def dropNames (actions : List MigrationAction) : List String := actions.filterMap deleteTableName

/-- The drops of `names`, one after the other in the slots of the drops. -/
def refill : List MigrationAction → List String → List MigrationAction
  | [], _ => []
  | a :: actions, names =>
      if isDeleteTable a then
        match names with
        | [] => a :: refill actions []
        | name :: names => .deleteTable name :: refill actions names
      else a :: refill actions names

theorem delete_table_cases (a : MigrationAction) :
    (∃ name, a = .deleteTable name) ∨ isDeleteTable a = false := by
  cases a <;> first | exact .inl ⟨_, rfl⟩ | exact .inr rfl

section Refill
variable {actions : List MigrationAction}

@[simp] theorem drop_names_drop (name : String) :
    dropNames (.deleteTable name :: actions) = name :: dropNames actions := rfl

theorem drop_names_other {a : MigrationAction} (other : isDeleteTable a = false) :
    dropNames (a :: actions) = dropNames actions := by
  cases a <;> first | rfl | cases other

@[simp] theorem refill_drop (name : String) (names : List String) (first : String) :
    refill (.deleteTable name :: actions) (first :: names) =
      .deleteTable first :: refill actions names := rfl

theorem refill_other {a : MigrationAction} (other : isDeleteTable a = false) (names : List String) :
    refill (a :: actions) names = a :: refill actions names := by
  simp [refill, other]

theorem refill_own : refill actions (dropNames actions) = actions := by
  induction actions with
  | nil => rfl
  | cons a actions ih =>
    rcases delete_table_cases a with ⟨name, rfl⟩ | other
    · rw [drop_names_drop, refill_drop, ih]
    · rw [drop_names_other other, refill_other other, ih]

theorem refill_append {drops names : List String} {rest : List MigrationAction}
    (none_left : ∀ a ∈ rest, isDeleteTable a = false) (length : names.length = drops.length) :
    refill (drops.map .deleteTable ++ rest) names = names.map .deleteTable ++ rest := by
  induction drops generalizing names with
  | nil =>
    obtain rfl := List.length_eq_zero_iff.mp length
    induction rest with
    | nil => rfl
    | cons a rest ih =>
      obtain ⟨other, others⟩ := List.forall_mem_cons.mp none_left
      simp only [List.map_nil, List.nil_append] at ih ⊢
      rw [refill_other other, ih others]
  | cons drop drops ih =>
    cases names with
    | nil => cases length
    | cons name names =>
      simp only [List.map_cons, List.cons_append, refill_drop, List.length_cons,
        Nat.add_right_cancel_iff] at length ⊢
      rw [ih length]

theorem refill_stays {names : List String} {i : Nat} {a : MigrationAction}
    (here : actions[i]? = some a) (other : isDeleteTable a = false) :
    (refill actions names)[i]? = some a := by
  induction actions generalizing names i with
  | nil => cases here
  | cons head actions ih =>
    rcases delete_table_cases head with ⟨name, rfl⟩ | head_other
    · cases i with
      | zero =>
        obtain rfl := Option.some.inj here
        cases other
      | succ i =>
        cases names with
        | nil => exact ih here
        | cons name names => exact ih here
    · rw [refill_other head_other]
      cases i with
      | zero => exact here
      | succ i => exact ih here

theorem refill_names {names : List String} (length : names.length = (dropNames actions).length) :
    dropNames (refill actions names) = names := by
  induction actions generalizing names with
  | nil => exact (List.length_eq_zero_iff.mp length).symm
  | cons a actions ih =>
    rcases delete_table_cases a with ⟨name, rfl⟩ | other
    · cases names with
      | nil => cases length
      | cons first names =>
        rw [refill_drop, drop_names_drop, ih (Nat.succ.inj length)]
    · rw [drop_names_other other] at length
      rw [refill_other other, drop_names_other other, ih length]

theorem refill_perm {names : List String} (perm : names.Perm (dropNames actions)) :
    (refill actions names).Perm actions := by
  have apart : ∀ names : List String, names.length = (dropNames actions).length →
      (refill actions names).Perm
        (actions.filter (! isDeleteTable ·) ++ names.map .deleteTable) := by
    clear perm
    induction actions with
    | nil =>
      intro names length
      obtain rfl := List.length_eq_zero_iff.mp length
      exact .refl _
    | cons a actions ih =>
      intro names length
      rcases delete_table_cases a with ⟨name, rfl⟩ | other
      · cases names with
        | nil => cases length
        | cons first names =>
          rw [refill_drop, List.map_cons]
          exact ((ih names (Nat.succ.inj length)).cons _).trans List.perm_middle.symm
      · rw [drop_names_other other] at length
        rw [refill_other other, List.filter_cons_of_pos (by simp [other])]
        exact (ih names length).cons a
  have own := apart (dropNames actions) rfl
  rw [refill_own] at own
  exact (apart names perm.length_eq).trans
    (((perm.map _).append_left _).trans own.symm)

end Refill

section Slots
variable {actions : List MigrationAction}

theorem slots_cons (a : MigrationAction) : slotsOf isDeleteTable (a :: actions) =
    (if isDeleteTable a then [0] else []) ++ (slotsOf isDeleteTable actions).map (· + 1) := by
  have shifted : ((actions.zipIdx 1).filter fun x => isDeleteTable x.1).map (·.2) =
      (slotsOf isDeleteTable actions).map (· + 1) := by
    rw [slotsOf, List.zipIdx_succ, List.filter_map, List.map_map, List.map_map]
    rfl
  rw [← shifted]
  simp only [slotsOf, List.zipIdx_cons, Nat.zero_add, List.filter_cons]
  split <;> rfl

theorem slots_length : (slotsOf isDeleteTable actions).length = (dropNames actions).length := by
  induction actions with
  | nil => rfl
  | cons a actions ih =>
    rw [slots_cons]
    rcases delete_table_cases a with ⟨name, rfl⟩ | other
    · simpa [isDeleteTable, deleteTableName] using ih
    · rw [drop_names_other other]
      simpa [other] using ih

theorem mem_slots {i : Nat} : i ∈ slotsOf isDeleteTable actions ↔
    ∃ a, actions[i]? = some a ∧ isDeleteTable a = true := by
  simp only [slotsOf, List.mem_map, List.mem_filter, Prod.exists, exists_eq_right,
    List.mem_zipIdx_iff_getElem?]

theorem slots_nodup : (slotsOf isDeleteTable actions).Nodup := by
  have numbers : (actions.zipIdx.map (·.2)).Nodup := by
    rw [List.zipIdx_map_snd]
    exact List.nodup_range'
  exact numbers.sublist (List.filter_sublist.map _)

theorem refill_slot {names : List String} (length : names.length = (dropNames actions).length)
    {rank : Nat} (bound : rank < names.length) :
    (refill actions names)[(slotsOf isDeleteTable actions).getD rank 0]? =
      some (.deleteTable (names.getD rank "")) := by
  induction actions generalizing names rank with
  | nil => simp [List.length_eq_zero_iff.mp length] at bound
  | cons a actions ih =>
    have shifted : ∀ r < (dropNames actions).length,
        ((slotsOf isDeleteTable actions).map (· + 1)).getD r 0 =
          (slotsOf isDeleteTable actions).getD r 0 + 1 := by
      intro r below
      rw [← slots_length] at below
      simp [List.getD_eq_getElem?_getD, below]
    rw [slots_cons]
    rcases delete_table_cases a with ⟨name, rfl⟩ | other
    · cases names with
      | nil => cases length
      | cons first names =>
        have rest : names.length = (dropNames actions).length := Nat.succ.inj length
        cases rank with
        | zero => rfl
        | succ rank =>
          have below : rank < names.length := Nat.lt_of_succ_lt_succ bound
          show (refill (.deleteTable name :: actions) (first :: names))[
            ((slotsOf isDeleteTable actions).map (· + 1)).getD rank 0]? = _
          rw [shifted rank (rest ▸ below), refill_drop, List.getElem?_cons_succ, ih rest below,
            List.getD_cons_succ]
    · rw [drop_names_other other] at length
      simp only [other, Bool.false_eq_true, if_false, List.nil_append]
      rw [shifted rank (length ▸ bound), refill_other other, List.getElem?_cons_succ,
        ih length bound]

structure Mirrors (slots : List Nat) (actions : List MigrationAction) (s s' : SwapState) : Prop where
  origins : s.originAt = s'.originAt
  positions : s.posOf = s'.posOf
  length : s.actions.length = actions.length
  own_length : s'.actions.length = slots.length
  drops : ∀ r < slots.length, s.actions[slots.getD r 0]? = s'.actions[r]?
  others : ∀ i ∉ slots, s.actions[i]? = actions[i]?

section Mirror
variable {slots order : List Nat} {s s' : SwapState} (nodup : slots.Nodup)
  (within : ∀ i ∈ slots, i < actions.length) (mirrors : Mirrors slots actions s s')
include nodup within mirrors

theorem mirror_place {dst : Nat} (dst_lt : dst < slots.length)
    (src_lt : s'.posOf.getD (order.getD dst 0) 0 < slots.length) :
    Mirrors slots actions (placeRank slots order s dst)
      (placeRank (List.range slots.length) order s' dst) := by
  obtain ⟨origins, positions, length, own_length, drops, others⟩ := mirrors
  simp only [placeRank, positions, origins, range_get dst_lt, range_get src_lt]
  generalize s'.posOf.getD (order.getD dst 0) 0 = src at src_lt
  split
  · have slot : ∀ r < slots.length, slots.getD r 0 ∈ slots := by
      intro r below
      rw [get_inside below]
      exact List.getElem_mem below
    have apart : ∀ r < slots.length, ∀ r' < slots.length,
        slots.getD r 0 = slots.getD r' 0 ↔ r = r' := by
      intro r below r' below'
      rw [get_inside below, get_inside below']
      exact nodup.getElem_inj_iff
    have swapped := @get_swap_at _ _ _ s.actions (length ▸ within _ (slot dst dst_lt))
      (length ▸ within _ (slot src src_lt))
    have own_swapped := @get_swap_at _ _ _ s'.actions (own_length ▸ dst_lt) (own_length ▸ src_lt)
    constructor
    · rfl
    · rfl
    · simp only [length_swap_at, length]
    · simp only [length_swap_at, own_length]
    · intro r below
      simp only [swapped, own_swapped, apart r below src src_lt, apart r below dst dst_lt,
        drops _ dst_lt, drops _ src_lt, drops r below]
    · intro i other
      have not_src : i ≠ slots.getD src 0 := fun same => other (same ▸ slot src src_lt)
      have not_dst : i ≠ slots.getD dst 0 := fun same => other (same ▸ slot dst dst_lt)
      simp only [swapped, not_src, not_dst, if_false, others i other]
  · exact ⟨origins, positions, length, own_length, drops, others⟩

end Mirror

theorem mirror_ranks {slots order : List Nat} (nodup : slots.Nodup)
    (within : ∀ i ∈ slots, i < actions.length) {drops : List MigrationAction}
    (length : drops.length = slots.length)
    (held : ∀ r < slots.length, actions[slots.getD r 0]? = drops[r]?)
    (perm : order.Perm (List.range slots.length)) {n : Nat} (bound : n ≤ slots.length) :
    Mirrors slots actions
      ((List.range n).foldl (placeRank slots order)
        ⟨actions, List.range slots.length, List.range slots.length⟩)
      ((List.range n).foldl (placeRank (List.range slots.length) order)
        ⟨drops, List.range slots.length, List.range slots.length⟩) := by
  induction n with
  | zero => exact ⟨rfl, rfl, rfl, length, held, fun _ _ => rfl⟩
  | succ n ih =>
    rw [List.range_succ, List.foldl_append, List.foldl_append]
    have placing := @place_ranks drops _ _ perm length.ge _ (Nat.le_of_succ_le bound)
    have want := order_get_lt perm (Nat.lt_of_succ_le bound)
    exact mirror_place nodup within (ih (Nat.le_of_succ_le bound)) (Nat.lt_of_succ_le bound)
      (placing.position_lt _ want)

theorem sort_delete_tables_refill (allTables : List TableDef) : sortDeleteTables actions allTables =
    refill actions (dropOrder (dropNames actions) allTables) := by
  simp only [sortDeleteTables]
  have slot_names := @refill_slot actions
  have nodup := @slots_nodup actions
  have slot_iff := @mem_slots actions
  have count := @slots_length actions
  have perm_names := @refill_perm actions
  have whole := @refill_own actions
  generalize slotsOf isDeleteTable actions = slots at *
  generalize dropNames actions = drops at *
  have slot_drop : ∀ rank < drops.length,
      actions[slots.getD rank 0]? = some (.deleteTable (drops.getD rank "")) := by
    intro rank bound
    have own := slot_names rfl bound
    rwa [whole] at own
  split
  · rename_i few
    have already : dropOrder drops allTables = drops :=
      List.Pairwise.insertionSort_eq (List.pairwise_iff_getElem.mpr fun i j hi hj _ => by omega)
    rw [already, whole]
  · set nameAt : Nat → String := fun rank =>
      (actions[slots.getD rank 0]?.bind deleteTableName).getD "" with name_at
    have named : ∀ rank < drops.length, nameAt rank = drops.getD rank "" := by
      intro rank bound
      simp only [name_at, slot_drop rank bound, Option.bind_some, deleteTableName,
        Option.getD_some]
    have names : (List.range slots.length).map nameAt = drops := by
      refine List.ext_getElem (by simp [count]) fun rank _ bound => ?_
      simp [named rank bound, bound]
    rw [names]
    set order := (List.range slots.length).insertionSort fun a b =>
      dropPosition drops allTables (nameAt a) ≤ dropPosition drops allTables (nameAt b)
      with order_def
    show ((List.range slots.length).foldl (placeRank slots order)
      ⟨actions, List.range slots.length, List.range slots.length⟩).actions = _
    have ordered : order.map nameAt = dropOrder drops allTables := by
      have moved := List.map_insertionSort
        (fun a b => dropPosition drops allTables (nameAt a) ≤ dropPosition drops allTables (nameAt b))
        (fun a b => dropPosition drops allTables a ≤ dropPosition drops allTables b)
        nameAt (List.range slots.length) fun a _ b _ => Iff.rfl
      rwa [names] at moved
    have perm : order.Perm (List.range slots.length) := List.perm_insertionSort _ _
    have length : (dropOrder drops allTables).length = drops.length :=
      (drop_order_perm _ _).length_eq
    have within : ∀ i ∈ slots, i < actions.length := by
      intro i mem
      obtain ⟨a, here, _⟩ := slot_iff.mp mem
      exact (List.getElem?_eq_some_iff.mp here).1
    have alone : ∀ r < slots.length,
        actions[slots.getD r 0]? = (drops.map MigrationAction.deleteTable)[r]? := by
      intro r bound
      rw [slot_drop r (count ▸ bound)]
      simp [count ▸ bound]
    have alone_length : (drops.map MigrationAction.deleteTable).length = slots.length := by
      rw [List.length_map, count]
    have mirrors := mirror_ranks nodup within alone_length alone perm le_rfl
    have placing := place_ranks perm alone_length.ge le_rfl
    refine List.ext_getElem? fun i => ?_
    by_cases slot : i ∈ slots
    · obtain ⟨r, bound, rfl⟩ := List.getElem_of_mem slot
      have ranked := order_get_lt perm bound
      rw [← get_inside bound, mirrors.drops r bound, placing.held, if_pos bound, placing.placed r bound,
        slot_names length (by omega), ← ordered]
      have inside : r < order.length := by rwa [perm.length_eq, List.length_range]
      have picked : (order.map nameAt).getD r "" = nameAt (order.getD r 0) := by
        simp [List.getD_eq_getElem?_getD, inside]
      have drop_lt : order.getD r 0 < drops.length := count ▸ ranked
      rw [picked, named _ drop_lt, ← alone _ ranked, slot_drop _ drop_lt]
    · rw [mirrors.others i slot]
      cases here : actions[i]? with
      | none =>
        have full := (perm_names (drop_order_perm drops allTables)).length_eq
        exact (List.getElem?_eq_none (full ▸ List.getElem?_eq_none_iff.mp here)).symm
      | some a =>
        have other : isDeleteTable a = false := by
          by_contra is_drop
          exact slot (slot_iff.mpr ⟨a, here, by simpa using is_drop⟩)
        exact (refill_stays here other).symm

end Slots

theorem sort_delete_tables {drops : List String} {rest : List MigrationAction}
    (none_left : ∀ a ∈ rest, isDeleteTable a = false) (allTables : List TableDef) :
    sortDeleteTables (drops.map .deleteTable ++ rest) allTables =
      (dropOrder drops allTables).map .deleteTable ++ rest := by
  have own : dropNames (drops.map .deleteTable ++ rest) = drops := by
    have kept := @refill_names (drops.map .deleteTable ++ rest)
      (dropNames (drops.map .deleteTable ++ rest)) rfl
    have none_named : rest.filterMap deleteTableName = [] := by
      rw [List.filterMap_eq_nil_iff]
      intro a mem
      simpa [isDeleteTable] using none_left a mem
    rw [dropNames, List.filterMap_append, none_named, List.append_nil, List.filterMap_map]
    exact List.filterMap_some
  rw [sort_delete_tables_refill, own,
    refill_append none_left (drop_order_perm drops allTables).length_eq]

/-! Dependents go first -/

def refTableOf : TableConstraint → Option String
  | .foreignKey _ _ refTable _ _ _ _ => some refTable
  | _ => none

def ReferencesTable (tables : List TableDef) (name refTable : String) : Prop :=
  ∃ t, tableGet tables name = some t ∧ ∃ c ∈ t.constraints, refTableOf c = some refTable

theorem mem_referenced {names : List String} {own : String} {constraints : List TableConstraint}
    {x : String} :
    x ∈ referencedTables names own constraints ↔
      x ∈ names ∧ x ≠ own ∧ ∃ c ∈ constraints, refTableOf c = some x := by
  simp only [referencedTables, KeyedView.mem_keys, List.mem_filterMap, id_eq, exists_eq_right]
  constructor
  · rintro ⟨c, mem, kept⟩
    cases c with
    | foreignKey name columns refTable refColumns onDelete onUpdate strategy =>
      simp only [Option.ite_none_right_eq_some, Option.some.injEq] at kept
      obtain ⟨⟨listed, other⟩, rfl⟩ := kept
      exact ⟨listed, other, _, mem, rfl⟩
    | _ => cases kept
  · rintro ⟨listed, other, c, mem, refers⟩
    refine ⟨c, mem, ?_⟩
    cases c with
    | foreignKey name columns refTable refColumns onDelete onUpdate strategy =>
      obtain rfl := Option.some.inj refers
      simp [listed, other]
    | _ => cases refers

section Deletion
variable {drops : List String} {allTables : List TableDef}

theorem deletion_names : (deletionDependencies drops allTables).map Prod.fst =
    KeyedView.keys id drops := by
  rw [deletionDependencies, List.map_map]
  exact List.map_id _

theorem deletion_proper : Proper (deletionDependencies drops allTables) := by
  constructor
  · rw [deletion_names]
    exact KeyedView.keys_nodup _ _
  · intro d mem
    obtain ⟨name, _, rfl⟩ := List.mem_map.mp mem
    dsimp only
    split
    · exact KeyedView.keys_nodup _ _
    · exact List.nodup_nil
  · intro d mem x needed
    rw [deletion_names, KeyedView.mem_keys]
    obtain ⟨name, _, rfl⟩ := List.mem_map.mp mem
    dsimp only at needed
    split at needed
    · exact ⟨x, (mem_referenced.mp needed).1, rfl⟩
    · cases needed

theorem mem_deletion_dependencies {name x : String} (listed : name ∈ drops) :
    x ∈ dependenciesOf (deletionDependencies drops allTables) name ↔
      x ∈ drops ∧ x ≠ name ∧ ReferencesTable allTables name x := by
  have mem : (name, _) ∈ deletionDependencies drops allTables :=
    List.mem_map.mpr ⟨name, KeyedView.mem_keys.mpr ⟨name, listed, rfl⟩, rfl⟩
  rw [dependencies_of_mem deletion_proper.names_nodup mem]
  unfold ReferencesTable
  cases found : tableGet allTables name with
  | none => simp
  | some t => simp [mem_referenced]

theorem position_before {name x : String}
    (needed : x ∈ dependenciesOf (deletionDependencies drops allTables) name)
    (placed : name ∈ kahnReadyOrder (deletionDependencies drops allTables))
    (x_placed : x ∈ kahnReadyOrder (deletionDependencies drops allTables)) (other : x ≠ name) :
    dropPosition drops allTables name < dropPosition drops allTables x := by
  set sorted := (kahnReadyOrder (deletionDependencies drops allTables)).reverse with sorted_def
  have here : name ∈ sorted := List.mem_reverse.mpr placed
  have there : x ∈ sorted := List.mem_reverse.mpr x_placed
  have dependents_first : sorted.Pairwise fun a b =>
      a ∉ dependenciesOf (deletionDependencies drops allTables) b :=
    List.pairwise_reverse.mpr (kahn_pairwise deletion_proper)
  have distinct : sorted.idxOf x ≠ sorted.idxOf name := fun same =>
    other ((List.idxOf_inj there).mp same)
  have in_name := List.idxOf_lt_length_of_mem here
  have in_x := List.idxOf_lt_length_of_mem there
  simp only [dropPosition, ← sorted_def, if_pos here, if_pos there]
  by_contra not_before
  have independent := List.pairwise_iff_getElem.mp dependents_first _ _ in_x in_name (by omega)
  rw [List.getElem_idxOf in_x, List.getElem_idxOf in_name] at independent
  exact independent needed

theorem drop_order_pairwise (nodup : drops.Nodup)
    (acyclic : Acyclic (deletionDependencies drops allTables)) :
    (dropOrder drops allTables).Pairwise fun a b => ¬ ReferencesTable allTables b a := by
  have complete : ∀ name ∈ drops, name ∈ kahnReadyOrder (deletionDependencies drops allTables) := by
    intro name mem
    apply kahn_complete deletion_proper acyclic
    rw [deletion_names, KeyedView.mem_keys]
    exact ⟨name, mem, rfl⟩
  have total : Std.Total fun a b : String =>
      dropPosition drops allTables a ≤ dropPosition drops allTables b :=
    ⟨fun a b => Nat.le_total _ _⟩
  have trans : IsTrans String fun a b =>
      dropPosition drops allTables a ≤ dropPosition drops allTables b :=
    ⟨fun _ _ _ => Nat.le_trans⟩
  have ascending : (dropOrder drops allTables).Pairwise fun a b =>
      dropPosition drops allTables a ≤ dropPosition drops allTables b :=
    List.pairwise_insertionSort _ _
  have perm := drop_order_perm drops allTables
  have apart : (dropOrder drops allTables).Pairwise (· ≠ ·) := perm.nodup_iff.mpr nodup
  refine (ascending.and apart).imp_of_mem ?_
  rintro a b a_mem b_mem ⟨no_later, distinct⟩ referenced
  have a_dropped := perm.mem_iff.mp a_mem
  have b_dropped := perm.mem_iff.mp b_mem
  have needed := (mem_deletion_dependencies b_dropped).mpr ⟨a_dropped, distinct, referenced⟩
  have before := position_before needed (complete b b_dropped) (complete a a_dropped) distinct
  omega

end Deletion

end Vespertide
