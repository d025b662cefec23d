import Mathlib.Data.List.Forall2
import Mathlib.Data.List.Sort

/-!
Rearranging some slots of a list. Elements of one class may exchange their
places, elements without a class stay where they are; a sort by a rank keeps the
order inside each rank.
-/
namespace Rearrange
variable {α κ : Type}

def swapAt (i j : Nat) (xs : List α) : List α :=
  match xs[i]?, xs[j]? with
  | some x, some y => (xs.set i y).set j x
  | _, _ => xs

def SameSlot (cls : α → Option κ) (x y : α) : Prop := x = y ∨ (cls x = cls y ∧ cls x ≠ none)

structure Rearranged (cls : α → Option κ) (xs ys : List α) : Prop where
  slots : List.Forall₂ (SameSlot cls) xs ys
  perm : xs.Perm ys

variable {cls : α → Option κ}

theorem SameSlot.refl (x : α) : SameSlot cls x x := .inl rfl

theorem SameSlot.class_eq {x y : α} (same : SameSlot cls x y) : cls x = cls y := by
  rcases same with rfl | ⟨same, _⟩
  · rfl
  · exact same

theorem SameSlot.trans {x y z : α} (first : SameSlot cls x y) (second : SameSlot cls y z) :
    SameSlot cls x z := by
  rcases first with rfl | ⟨same, classed⟩
  · exact second
  · exact .inr ⟨same.trans second.class_eq, classed⟩

theorem forall₂_slots_trans {xs ys zs : List α} (first : List.Forall₂ (SameSlot cls) xs ys)
    (second : List.Forall₂ (SameSlot cls) ys zs) : List.Forall₂ (SameSlot cls) xs zs := by
  induction first generalizing zs with
  | nil => exact second
  | cons head _ ih =>
    cases second with
    | cons head' tail' => exact .cons (head.trans head') (ih tail')

theorem Rearranged.refl (xs : List α) : Rearranged cls xs xs :=
  ⟨List.forall₂_same.mpr fun x _ => .refl x, .refl xs⟩

theorem Rearranged.trans {xs ys zs : List α} (first : Rearranged cls xs ys)
    (second : Rearranged cls ys zs) : Rearranged cls xs zs :=
  ⟨forall₂_slots_trans first.slots second.slots, first.perm.trans second.perm⟩

theorem forall₂_set {xs : List α} {i : Nat} {x y : α} (here : xs[i]? = some x)
    (same : SameSlot cls x y) : List.Forall₂ (SameSlot cls) xs (xs.set i y) := by
  induction xs generalizing i with
  | nil => simp at here
  | cons a xs ih =>
    cases i with
    | zero =>
      obtain rfl : a = x := by simpa using here
      exact .cons same (List.forall₂_same.mpr fun x _ => .refl x)
    | succ i => exact .cons (.refl a) (ih (by simpa using here))

theorem swap_at_perm (i j : Nat) (xs : List α) : (swapAt i j xs).Perm xs := by
  unfold swapAt
  split
  · rename_i x y first second
    obtain ⟨_, rfl⟩ := List.getElem?_eq_some_iff.mp first
    obtain ⟨_, rfl⟩ := List.getElem?_eq_some_iff.mp second
    exact List.set_set_perm _ _
  · exact .refl xs

theorem length_swap_at (i j : Nat) (xs : List α) : (swapAt i j xs).length = xs.length :=
  (swap_at_perm i j xs).length_eq

theorem get_swap_at {i j : Nat} {xs : List α} (hi : i < xs.length) (hj : j < xs.length)
    (k : Nat) :
    (swapAt i j xs)[k]? = if k = j then xs[i]? else if k = i then xs[j]? else xs[k]? := by
  simp only [swapAt, List.getElem?_eq_getElem hi, List.getElem?_eq_getElem hj, List.getElem?_set,
    List.length_set]
  grind

theorem rearranged_swap {i j : Nat} {xs : List α} {x y : α} (first : xs[i]? = some x)
    (second : xs[j]? = some y) (same : cls x = cls y) (classed : cls x ≠ none) :
    Rearranged cls xs (swapAt i j xs) := by
  refine ⟨?_, (swap_at_perm i j xs).symm⟩
  simp only [swapAt, first, second]
  have once : List.Forall₂ (SameSlot cls) xs (xs.set i y) :=
    forall₂_set first (.inr ⟨same, classed⟩)
  by_cases apart : i = j
  · subst apart
    obtain rfl : x = y := Option.some.inj (first.symm.trans second)
    have there : (xs.set i x)[i]? = some x := by
      obtain ⟨bound, _⟩ := List.getElem?_eq_some_iff.mp first
      simp [bound]
    exact forall₂_slots_trans once (forall₂_set there (.refl x))
  · have there : (xs.set i y)[j]? = some y := by
      rw [List.getElem?_set_ne apart]
      exact second
    exact forall₂_slots_trans once (forall₂_set there (.inr ⟨same.symm, same ▸ classed⟩))

theorem slots_get {xs ys : List α} (slots : List.Forall₂ (SameSlot cls) xs ys) {i : Nat} {x : α}
    (here : xs[i]? = some x) : ∃ y, ys[i]? = some y ∧ SameSlot cls x y := by
  induction slots generalizing i with
  | nil => simp at here
  | cons head _ ih =>
    cases i with
    | zero =>
      obtain rfl := Option.some.inj here
      exact ⟨_, rfl, head⟩
    | succ i => exact ih here

theorem rearranged_swaps {swaps : List (Nat × Nat)} {xs : List α}
    (classed : ∀ s ∈ swaps, ∃ x y, xs[s.1]? = some x ∧ xs[s.2]? = some y ∧ cls x = cls y ∧
      cls x ≠ none) :
    Rearranged cls xs (swaps.foldl (fun xs (i, j) => swapAt i j xs) xs) := by
  suffices run : ∀ ys, Rearranged cls xs ys →
      Rearranged cls xs (swaps.foldl (fun xs (i, j) => swapAt i j xs) ys) from run xs (.refl xs)
  induction swaps with
  | nil => exact fun ys moved => moved
  | cons s swaps ih =>
    intro ys moved
    refine ih (fun s' mem => classed s' (List.mem_cons_of_mem s mem)) _ (moved.trans ?_)
    obtain ⟨x, y, first, second, same, some_class⟩ := classed s List.mem_cons_self
    obtain ⟨x', first', x_slot⟩ := slots_get moved.slots first
    obtain ⟨y', second', y_slot⟩ := slots_get moved.slots second
    refine rearranged_swap first' second' ?_ ?_
    · rw [← x_slot.class_eq, ← y_slot.class_eq, same]
    · rw [← x_slot.class_eq]
      exact some_class

theorem forall₂_slots_unclassed {xs ys : List α} (slots : List.Forall₂ (SameSlot cls) xs ys)
    (unclassed : ∀ x ∈ xs, cls x = none) : ys = xs := by
  induction slots with
  | nil => rfl
  | cons head _ ih =>
    rcases head with rfl | ⟨_, classed⟩
    · rw [ih fun x mem => unclassed x (List.mem_cons_of_mem _ mem)]
    · exact absurd (unclassed _ List.mem_cons_self) classed

theorem Rearranged.eq_of_unclassed {xs ys : List α} (moved : Rearranged cls xs ys)
    (unclassed : ∀ x ∈ xs, cls x = none) : ys = xs :=
  forall₂_slots_unclassed moved.slots unclassed

theorem Rearranged.filter {xs ys : List α} (moved : Rearranged cls xs ys) {p : α → Bool}
    (blind : ∀ x y, cls x = cls y → cls x ≠ none → p x = p y) :
    Rearranged cls (xs.filter p) (ys.filter p) := by
  refine ⟨List.rel_filter ?_ moved.slots, moved.perm.filter p⟩
  rintro x y (rfl | ⟨same, classed⟩)
  · exact Iff.rfl
  · simp only [blind x y same classed]

section Split
variable [DecidableEq α] {xs ys zs : List α}

theorem count_of_slots {e : α} (slots : List.Forall₂ (SameSlot cls) xs zs)
    (free : cls e = none) : zs.count e = xs.count e := by
  induction slots with
  | nil => rfl
  | cons head _ ih =>
    rcases head with rfl | ⟨same, classed⟩
    · simp only [List.count_cons, ih]
    · rename_i a b _ _ _
      have left : a ≠ e := fun here => classed (here ▸ free)
      have right : b ≠ e := fun here => classed (same.trans (here ▸ free))
      simp [left, right, ih]

omit [DecidableEq α] in
theorem class_mem_of_slots {e : α} (slots : List.Forall₂ (SameSlot cls) xs zs) (mem : e ∈ zs) :
    ∃ x ∈ xs, cls x = cls e := by
  induction slots with
  | nil => simp at mem
  | cons head _ ih =>
    rcases List.mem_cons.mp mem with rfl | later
    · exact ⟨_, List.mem_cons_self, head.class_eq⟩
    · obtain ⟨x, hx, same⟩ := ih later
      exact ⟨x, List.mem_cons_of_mem _ hx, same⟩

theorem Rearranged.split (moved : Rearranged cls (xs ++ ys) zs)
    (apart : ∀ x ∈ xs, ∀ y ∈ ys, cls x = cls y → cls x = none) :
    ∃ xs' ys', zs = xs' ++ ys' ∧ Rearranged cls xs xs' ∧ Rearranged cls ys ys' := by
  have first := List.forall₂_take xs.length moved.slots
  have second := List.forall₂_drop xs.length moved.slots
  simp only [List.take_left, List.drop_left] at first second
  have whole := List.take_append_drop xs.length zs
  generalize zs.take xs.length = xs' at first whole
  generalize zs.drop xs.length = ys' at second whole
  subst whole
  have counts := moved.perm.count_eq
  simp only [List.count_append] at counts
  have left : ∀ e, xs.count e = xs'.count e := by
    intro e
    by_cases free : cls e = none
    · exact (count_of_slots first free).symm
    by_cases present : ∃ x ∈ xs, cls x = cls e
    · obtain ⟨x, hx, same⟩ := present
      have gone : e ∉ ys' := by
        intro mem
        obtain ⟨y, hy, same'⟩ := class_mem_of_slots second mem
        exact free (same ▸ apart x hx y hy (same.trans same'.symm))
      have absent : e ∉ ys := fun mem => free (same ▸ apart x hx e mem same)
      have here := counts e
      rw [List.count_eq_zero.mpr gone, List.count_eq_zero.mpr absent] at here
      omega
    · have absent : e ∉ xs := fun mem => present ⟨e, mem, rfl⟩
      have gone : e ∉ xs' := fun mem => present (class_mem_of_slots first mem)
      rw [List.count_eq_zero.mpr gone, List.count_eq_zero.mpr absent]
  refine ⟨xs', ys', rfl, ⟨first, List.perm_iff_count.mpr left⟩,
    ⟨second, List.perm_iff_count.mpr fun e => ?_⟩⟩
  have here := counts e
  have there := left e
  omega

theorem Rearranged.split_middle {before after : List α}
    (moved : Rearranged cls (before ++ xs ++ after) zs)
    (fixed_before : ∀ x ∈ before, cls x = none) (fixed_after : ∀ x ∈ after, cls x = none) :
    ∃ xs', zs = before ++ xs' ++ after ∧ Rearranged cls xs xs' := by
  obtain ⟨front, after', rfl, front_moved, after_moved⟩ :=
    moved.split fun x _ y mem same => same.trans (fixed_after y mem)
  obtain rfl := after_moved.eq_of_unclassed fixed_after
  obtain ⟨before', xs', rfl, before_moved, xs_moved⟩ :=
    front_moved.split fun x mem _ _ _ => fixed_before x mem
  obtain rfl := before_moved.eq_of_unclassed fixed_before
  exact ⟨xs', rfl, xs_moved⟩

end Split

/-- Blocks of classes of their own are rearranged each for itself. -/
theorem Rearranged.split_blocks [DecidableEq α] {ι : Type} {names : List ι} (nodup : names.Nodup)
    {block : ι → List α} {zs : List α} (moved : Rearranged cls (names.flatMap block) zs)
    (apart : ∀ n ∈ names, ∀ m ∈ names, n ≠ m → ∀ x ∈ block n, ∀ y ∈ block m,
      cls x = cls y → cls x = none) :
    ∃ block', zs = names.flatMap block' ∧ ∀ n ∈ names, Rearranged cls (block n) (block' n) := by
  classical
  induction names generalizing zs with
  | nil =>
    obtain rfl : zs = [] := by simpa using moved.perm.symm
    exact ⟨block, by simp⟩
  | cons n names ih =>
    obtain ⟨fresh, rest⟩ := List.nodup_cons.mp nodup
    rw [List.flatMap_cons] at moved
    obtain ⟨head, tail, rfl, head_moved, tail_moved⟩ := moved.split (by
      intro x hx y hy same
      obtain ⟨m, hm, hy⟩ := List.mem_flatMap.mp hy
      have other : n ≠ m := fun here => fresh (here ▸ hm)
      exact apart n List.mem_cons_self m (List.mem_cons_of_mem n hm) other x hx y hy same)
    obtain ⟨block', rfl, each⟩ := ih rest tail_moved
      (fun a ha b hb => apart a (List.mem_cons_of_mem n ha) b (List.mem_cons_of_mem n hb))
    have others : ∀ m ∈ names, Function.update block' n head m = block' m := by
      intro m hm
      exact Function.update_of_ne (by rintro rfl; exact fresh hm) _ _
    refine ⟨Function.update block' n head, ?_, ?_⟩
    · rw [List.flatMap_cons, Function.update_self]
      congr 1
      exact List.flatMap_congr fun m hm => (others m hm).symm
    · intro m hm
      rcases List.mem_cons.mp hm with rfl | later
      · rwa [Function.update_self]
      · rw [others m later]
        exact each m later

/-! What a swap does to the elements of one class -/

section Pairs
variable {p : α → Bool} {xs : List α} {i j : Nat} {x y : α}

theorem split_at (here : xs[i]? = some x) : ∃ before after,
    xs = before ++ x :: after ∧ before.length = i := by
  obtain ⟨bound, rfl⟩ := List.getElem?_eq_some_iff.mp here
  refine ⟨xs.take i, xs.drop (i + 1), ?_, ?_⟩
  · rw [← List.drop_eq_getElem_cons bound, List.take_append_drop]
  · rw [List.length_take]
    omega

theorem split_at_two (apart : i < j) (first : xs[i]? = some x) (second : xs[j]? = some y) :
    ∃ before between after, xs = before ++ x :: (between ++ y :: after) ∧ before.length = i ∧
      before.length + (between.length + 1) = j := by
  obtain ⟨before, rest, rfl, at_i⟩ := split_at first
  have later : rest[j - i - 1]? = some y := by
    rw [← second, List.getElem?_append_right (by omega), at_i,
      show j - i = j - i - 1 + 1 by omega, List.getElem?_cons_succ]
    rfl
  obtain ⟨between, after, rfl, at_j⟩ := split_at later
  exact ⟨before, between, after, rfl, at_i, by omega⟩

theorem swap_at_split (apart : i < j) (first : xs[i]? = some x) (second : xs[j]? = some y) :
    ∃ before between after, xs = before ++ x :: (between ++ y :: after) ∧
      swapAt i j xs = before ++ y :: (between ++ x :: after) := by
  obtain ⟨before, between, after, rfl, at_i, at_j⟩ := split_at_two apart first second
  refine ⟨before, between, after, rfl, ?_⟩
  subst at_i at_j
  simp only [swapAt, first, second]
  simp [show before.length + (between.length + 1) - before.length = between.length + 1 by omega]

theorem filter_swap_other (apart : i < j) (first : xs[i]? = some x) (second : xs[j]? = some y)
    (x_other : p x = false) (y_other : p y = false) :
    (swapAt i j xs).filter p = xs.filter p := by
  obtain ⟨before, between, after, rfl, swapped⟩ := swap_at_split apart first second
  rw [swapped]
  simp [x_other, y_other]

theorem filter_swap_own (apart : i < j) (first : xs[i]? = some x) (second : xs[j]? = some y)
    (x_own : p x = true) (y_own : p y = true) (only_two : (xs.filter p).length ≤ 2) :
    (swapAt i j xs).filter p = (xs.filter p).reverse := by
  obtain ⟨before, between, after, rfl, swapped⟩ := swap_at_split apart first second
  rw [swapped]
  simp only [List.filter_append, List.filter_cons_of_pos x_own, List.filter_cons_of_pos y_own,
    List.length_append, List.length_cons] at only_two ⊢
  have no_before : before.filter p = [] := List.length_eq_zero_iff.mp (by omega)
  have no_between : between.filter p = [] := List.length_eq_zero_iff.mp (by omega)
  have no_after : after.filter p = [] := List.length_eq_zero_iff.mp (by omega)
  simp [no_before, no_between, no_after]

theorem pair_order (pair : xs.filter p = [x, y]) (first : xs[i]? = some x)
    (second : xs[j]? = some y) (apart : x ≠ y) : i < j := by
  have all : ∀ e ∈ xs.filter p, p e = true := fun e mem => (List.mem_filter.mp mem).2
  rw [pair] at all
  have own : p x = true ∧ p y = true := ⟨all x (by simp), all y (by simp)⟩
  rcases Nat.lt_trichotomy i j with before | same | after
  · exact before
  · subst same
    exact absurd (Option.some.inj (first.symm.trans second)) apart
  · obtain ⟨front, between, back, rfl, _⟩ := split_at_two after second first
    simp only [List.filter_append, List.filter_cons_of_pos own.1,
      List.filter_cons_of_pos own.2] at pair
    have lengths := congrArg List.length pair
    simp only [List.length_append, List.length_cons, List.length_nil] at lengths
    have no_front : front.filter p = [] := List.length_eq_zero_iff.mp (by omega)
    rw [no_front, List.nil_append] at pair
    exact absurd (List.cons.inj pair).1.symm apart

theorem pair_kept_front {front back : List α} (pair : (front ++ back).filter p = [x, y])
    (apart : x ≠ y) (mem : y ∈ front) : x ∈ front := by
  have own : p y = true := by
    have kept : y ∈ (front ++ back).filter p := by simp [pair]
    exact (List.mem_filter.mp kept).2
  have here : y ∈ front.filter p := List.mem_filter.mpr ⟨mem, own⟩
  rw [List.filter_append] at pair
  cases shape : front.filter p with
  | nil =>
    rw [shape] at here
    cases here
  | cons z rest =>
    rw [shape, List.cons_append] at pair
    obtain ⟨rfl, _⟩ := List.cons.inj pair
    exact List.mem_of_mem_filter (shape ▸ List.mem_cons_self)

variable [DecidableEq κ]

/-- A run of swaps, each inside a class of its own with no further element, turns round the
    classes it swaps in. -/
theorem filter_swaps {swaps : List (Nat × Nat)}
    (classed : ∀ s ∈ swaps, s.1 < s.2 ∧ ∃ x y, xs[s.1]? = some x ∧ xs[s.2]? = some y ∧
      cls x = cls y ∧ cls x ≠ none)
    (distinct : (swaps.map fun s => xs[s.1]?.bind cls).Nodup)
    {k : κ} (only_two : (xs.filter (cls · = some k)).length ≤ 2) :
    (swaps.foldl (fun xs (i, j) => swapAt i j xs) xs).filter (cls · = some k) =
      if some k ∈ swaps.map (fun s => xs[s.1]?.bind cls)
      then (xs.filter (cls · = some k)).reverse else xs.filter (cls · = some k) := by
  induction swaps generalizing xs with
  | nil => simp
  | cons s swaps ih =>
    obtain ⟨⟨apart, x, y, first, second, same, some_class⟩, others⟩ :=
      List.forall_mem_cons.mp classed
    have moved : Rearranged cls xs (swapAt s.1 s.2 xs) := rearranged_swap first second same some_class
    -- the classes of the slots stay
    have slot : ∀ (n : Nat) (x : α), xs[n]? = some x →
        ∃ x', (swapAt s.1 s.2 xs)[n]? = some x' ∧ cls x = cls x' := by
      intro n x here
      obtain ⟨x', there, slots⟩ := slots_get moved.slots here
      exact ⟨x', there, slots.class_eq⟩
    have still : ∀ s' ∈ swaps, (swapAt s.1 s.2 xs)[s'.1]?.bind cls = xs[s'.1]?.bind cls := by
      intro s' mem
      obtain ⟨_, x', _, first', _⟩ := others s' mem
      obtain ⟨x'', there, kept⟩ := slot s'.1 x' first'
      rw [there, first', Option.bind_some, Option.bind_some, kept]
    have keys : swaps.map (fun s' => (swapAt s.1 s.2 xs)[s'.1]?.bind cls) =
        swaps.map fun s' => xs[s'.1]?.bind cls := List.map_congr_left still
    rw [List.map_cons, List.nodup_cons] at distinct
    obtain ⟨fresh, rest⟩ := distinct
    have length : ((swapAt s.1 s.2 xs).filter (cls · = some k)).length ≤ 2 := by
      rwa [((swap_at_perm s.1 s.2 xs).filter _).length_eq]
    have others' : ∀ s' ∈ swaps, s'.1 < s'.2 ∧ ∃ x y, (swapAt s.1 s.2 xs)[s'.1]? = some x ∧
        (swapAt s.1 s.2 xs)[s'.2]? = some y ∧ cls x = cls y ∧ cls x ≠ none := by
      intro s' mem
      obtain ⟨apart', x', y', first', second', same', classed'⟩ := others s' mem
      obtain ⟨x'', there, kept⟩ := slot s'.1 x' first'
      obtain ⟨y'', there', kept'⟩ := slot s'.2 y' second'
      exact ⟨apart', x'', y'', there, there', by rw [← kept, ← kept', same'], kept ▸ classed'⟩
    have next := ih others' (keys ▸ rest) length
    rw [keys] at next
    rw [List.foldl_cons, next, List.map_cons, first, Option.bind_some]
    by_cases own : cls x = some k
    · have gone : some k ∉ swaps.map fun s' => xs[s'.1]?.bind cls := by
        rw [first, Option.bind_some, own] at fresh
        exact fresh
      rw [if_neg gone, if_pos (List.mem_cons.mpr (.inl own.symm))]
      exact filter_swap_own apart first second (by simpa using own) (by simpa using same ▸ own)
        only_two
    · have kept : (swapAt s.1 s.2 xs).filter (cls · = some k) = xs.filter (cls · = some k) :=
        filter_swap_other apart first second (by simpa using own) (by simpa using same ▸ own)
      rw [kept]
      simp only [List.mem_cons, Ne.symm own, false_or]

end Pairs

/-! A stable sort by rank -/

theorem filter_sort {r : α → α → Prop} [DecidableRel r] {p : α → Bool}
    (level : ∀ a b, p a = true → p b = true → r a b) (xs : List α) :
    (xs.insertionSort r).filter p = xs.filter p := by
  have perm := (List.perm_insertionSort r xs).filter p
  have alike : (xs.filter p).Pairwise r := by
    refine List.pairwise_iff_getElem.mpr fun i j hi hj _ => ?_
    exact level _ _ (List.of_mem_filter (List.getElem_mem hi))
      (List.of_mem_filter (List.getElem_mem hj))
  have kept := (List.sublist_insertionSort alike List.filter_sublist).filter p
  rw [List.filter_filter] at kept
  simp only [Bool.and_self] at kept
  exact (kept.eq_of_length perm.length_eq.symm).symm

section Ranked
variable (rank : α → Nat)

theorem filter_rank_sort (k : Nat) (xs : List α) :
    (xs.insertionSort fun a b => rank a ≤ rank b).filter (rank · = k) =
      xs.filter (rank · = k) := by
  refine filter_sort (fun a b left right => ?_) xs
  rw [decide_eq_true_eq] at left right
  exact (left.trans right.symm).le

theorem sorted_split {xs : List α} (sorted : xs.Pairwise fun a b => rank a ≤ rank b) (k : Nat) :
    xs = xs.filter (rank · < k) ++ xs.filter (k ≤ rank ·) := by
  induction xs with
  | nil => rfl
  | cons x xs ih =>
    obtain ⟨least, rest⟩ := List.pairwise_cons.mp sorted
    by_cases low : rank x < k
    · have high : ¬ k ≤ rank x := by omega
      rw [List.filter_cons_of_pos (by simpa using low), List.filter_cons_of_neg (by simpa using high),
        List.cons_append, ← ih rest]
    · have none_low : xs.filter (rank · < k) = [] := by
        rw [List.filter_eq_nil_iff]
        intro y mem
        have above := least y mem
        simp only [decide_eq_true_eq]
        omega
      have high : k ≤ rank x := by omega
      have here := ih rest
      rw [none_low, List.nil_append] at here
      rw [List.filter_cons_of_neg (by simpa using low), List.filter_cons_of_pos (by simpa using high),
        none_low, List.nil_append, ← here]

theorem pair_sorted_iff {xs : List α} {x y : α} (x_mem : x ∈ xs) (y_mem : y ∈ xs) :
    List.Sublist [y, x] (xs.insertionSort fun a b => rank a ≤ rank b) ↔
      rank y < rank x ∨ (rank y = rank x ∧ List.Sublist [y, x] xs) := by
  have total : Std.Total fun a b : α => rank a ≤ rank b := ⟨fun a b => Nat.le_total _ _⟩
  have trans : IsTrans α fun a b => rank a ≤ rank b := ⟨fun _ _ _ => Nat.le_trans⟩
  have sorted : (xs.insertionSort fun a b => rank a ≤ rank b).Pairwise
      fun a b => rank a ≤ rank b := List.pairwise_insertionSort _ _
  have perm := List.perm_insertionSort (fun a b => rank a ≤ rank b) xs
  constructor
  · intro behind
    have ordered : rank y ≤ rank x := by simpa using sorted.sublist behind
    rcases Nat.lt_or_eq_of_le ordered with lower | level
    · exact .inl lower
    · have tied := behind.filter (rank · = rank x)
      rw [filter_rank_sort] at tied
      simp only [level, decide_true, List.filter_cons_of_pos, List.filter_nil] at tied
      exact .inr ⟨level, tied.trans List.filter_sublist⟩
  · rintro (lower | ⟨level, behind⟩)
    · rw [sorted_split rank sorted (rank x)]
      have front : y ∈ (xs.insertionSort fun a b => rank a ≤ rank b).filter (rank · < rank x) :=
        List.mem_filter.mpr ⟨perm.mem_iff.mpr y_mem, by simpa using lower⟩
      have back : x ∈ (xs.insertionSort fun a b => rank a ≤ rank b).filter (rank x ≤ rank ·) :=
        List.mem_filter.mpr ⟨perm.mem_iff.mpr x_mem, by simp⟩
      exact (List.singleton_sublist.mpr front).append (List.singleton_sublist.mpr back)
    · exact List.pair_sublist_insertionSort level.le behind

theorem sort_three_ranks (xs : List α) (bounded : ∀ x ∈ xs, rank x ≤ 2) :
    (xs.insertionSort fun a b => rank a ≤ rank b) =
      xs.filter (rank · = 0) ++ xs.filter (rank · = 1) ++ xs.filter (rank · = 2) := by
  have total : Std.Total fun a b : α => rank a ≤ rank b := ⟨fun a b => Nat.le_total _ _⟩
  have trans : IsTrans α fun a b => rank a ≤ rank b := ⟨fun _ _ _ => Nat.le_trans⟩
  have sorted := List.pairwise_insertionSort (fun a b => rank a ≤ rank b) xs
  have stable := fun k => filter_rank_sort rank k xs
  have within : ∀ x ∈ xs.insertionSort fun a b => rank a ≤ rank b, rank x ≤ 2 := fun x mem =>
    bounded x ((List.mem_insertionSort _).mp mem)
  rw [← stable 0, ← stable 1, ← stable 2]
  generalize xs.insertionSort (fun a b => rank a ≤ rank b) = ys at sorted within
  have low := sorted_split rank sorted 1
  have high := sorted_split rank (sorted.filter (1 ≤ rank ·)) 2
  rw [List.filter_filter, List.filter_filter] at high
  rw [high] at low
  refine low.trans ?_
  rw [← List.append_assoc]
  congr 1
  · congr 1
    · exact List.filter_congr fun x _ => by simp
    · refine List.filter_congr fun x _ => ?_
      rw [Bool.eq_iff_iff]
      simp only [Bool.and_eq_true, decide_eq_true_eq]
      omega
  · refine List.filter_congr fun x mem => ?_
    have top := within x mem
    rw [Bool.eq_iff_iff]
    simp only [Bool.and_eq_true, decide_eq_true_eq]
    omega

end Ranked

end Rearrange
