import Mathlib.Data.List.Destutter
import Mathlib.Data.List.Nodup
import Mathlib.Data.List.Pairwise
import Vespertide.Support.Rearrange

/-!
Neighbours of one kind reduced to the first of them. Every kind is left once exactly
where its elements stand together, and then the first of the kind is what is left.
-/
namespace Neighbours

variable {α β : Type} [DecidableEq β] {f : α → β}

/-- Nothing of another kind stands between two elements of one. -/
def Together (f : α → β) (xs : List α) : Prop :=
  ∀ a b c, [a, b, c].Sublist xs → f a = f c → f b = f a

def firsts (f : α → β) (xs : List α) : List α := xs.destutter fun a b => f a ≠ f b

omit [DecidableEq β] in
theorem Together.sublist {xs ys : List α} (together : Together f ys) (sub : xs.Sublist ys) :
    Together f xs :=
  fun a b c triple => together a b c (triple.trans sub)

theorem mem_firsts_kind (a : α) (xs : List α) : ∀ x ∈ a :: xs,
    ∃ y ∈ xs.destutter' (fun a b => f a ≠ f b) a, f y = f x := by
  induction xs generalizing a with
  | nil =>
    intro x mem
    exact ⟨x, mem, rfl⟩
  | cons b xs ih =>
    intro x mem
    by_cases same : f a = f b
    · rw [List.destutter'_cons_neg _ (not_not.mpr same)]
      rcases List.mem_cons.mp mem with rfl | rest
      · exact ih x x List.mem_cons_self
      · rcases List.mem_cons.mp rest with rfl | later
        · obtain ⟨y, kept, kind⟩ := ih a a List.mem_cons_self
          exact ⟨y, kept, kind.trans same⟩
        · exact ih a x (List.mem_cons_of_mem _ later)
    · rw [List.destutter'_cons_pos _ same]
      rcases List.mem_cons.mp mem with rfl | rest
      · exact ⟨x, List.mem_cons_self, rfl⟩
      · obtain ⟨y, kept, kind⟩ := ih b x rest
        exact ⟨y, List.mem_cons_of_mem _ kept, kind⟩

theorem kinds_apart (a : α) (xs : List α) (together : Together f (a :: xs)) :
    ((xs.destutter' (fun a b => f a ≠ f b) a).map f).Nodup ∧
      ∀ x, x ∈ xs.destutter' (fun a b => f a ≠ f b) a ↔
        (a :: xs).find? (f · = f x) = some x := by
  induction xs generalizing a with
  | nil =>
    refine ⟨List.nodup_singleton _, fun x => ?_⟩
    by_cases same : f a = f x
    · simp [same, eq_comm]
    · simp only [List.destutter'_nil, List.mem_singleton, List.find?_cons, decide_eq_false same,
        List.find?_nil, reduceCtorEq, iff_false]
      rintro rfl
      exact same rfl
  | cons b xs ih =>
    by_cases same : f a = f b
    · rw [List.destutter'_cons_neg _ (not_not.mpr same)]
      obtain ⟨nodup, kept⟩ := ih a (together.sublist ((List.sublist_cons_self b xs).cons_cons a))
      refine ⟨nodup, fun x => (kept x).trans ?_⟩
      by_cases kind : f a = f x
      · simp [kind]
      · simp [kind, same ▸ kind]
    · rw [List.destutter'_cons_pos _ same]
      obtain ⟨nodup, kept⟩ := ih b (together.sublist (List.sublist_cons_self a _))
      have away : ∀ x ∈ xs.destutter' (fun a b => f a ≠ f b) b, f a ≠ f x := by
        intro x mem kind
        rcases List.mem_cons.mp ((List.destutter'_sublist xs _ b).subset mem) with rfl | later
        · exact same kind
        · refine same (together a b x ?_ kind).symm
          exact ((List.singleton_sublist.mpr later).cons_cons b).cons_cons a
      refine ⟨List.nodup_cons.mpr ⟨?_, nodup⟩, fun x => ?_⟩
      · rw [List.mem_map]
        rintro ⟨x, mem, kind⟩
        exact away x mem kind.symm
      · rw [List.mem_cons, List.find?_cons]
        by_cases kind : f a = f x
        · rw [decide_eq_true kind]
          simp only [Option.some.injEq]
          exact ⟨fun either => either.elim Eq.symm fun mem => absurd kind (away x mem),
            fun here => .inl here.symm⟩
        · rw [decide_eq_false kind, ← kept x]
          refine ⟨fun either => either.resolve_left ?_, .inr⟩
          rintro rfl
          exact kind rfl

theorem together_of_apart (a : α) (xs : List α)
    (nodup : ((xs.destutter' (fun a b => f a ≠ f b) a).map f).Nodup) : Together f (a :: xs) := by
  induction xs generalizing a with
  | nil =>
    intro x y z triple
    exact absurd triple.length_le (by simp)
  | cons b xs ih =>
    intro x y z triple kind
    by_cases same : f a = f b
    · rw [List.destutter'_cons_neg _ (not_not.mpr same)] at nodup
      have rest := ih a nodup
      rcases List.sublist_cons_iff.mp triple with later | ⟨tail, split, later⟩
      · rcases List.sublist_cons_iff.mp later with last | ⟨tail, split, last⟩
        · exact rest x y z (last.cons a) kind
        · obtain ⟨rfl, rfl⟩ := List.cons.inj split
          exact (rest a y z (last.cons_cons a) (same.trans kind)).trans same
      · obtain ⟨rfl, rfl⟩ := List.cons.inj split
        rcases List.sublist_cons_iff.mp later with last | ⟨tail, split, last⟩
        · exact rest x y z (last.cons_cons x) kind
        · rw [(List.cons.inj split).1]
          exact same.symm
    · rw [List.destutter'_cons_pos _ same] at nodup
      obtain ⟨away, apart⟩ := List.nodup_cons.mp nodup
      rcases List.sublist_cons_iff.mp triple with later | ⟨tail, split, later⟩
      · exact ih b apart x y z later kind
      · obtain ⟨rfl, rfl⟩ := List.cons.inj split
        obtain ⟨w, kept, alike⟩ := mem_firsts_kind (f := f) b xs z (later.subset (by simp))
        exact absurd (List.mem_map.mpr ⟨w, kept, alike.trans kind.symm⟩) away

theorem firsts_apart_iff (xs : List α) : ((firsts f xs).map f).Nodup ↔ Together f xs := by
  cases xs with
  | nil => exact iff_of_true List.nodup_nil fun a b c triple => absurd triple.length_le (by simp)
  | cons a xs => exact ⟨together_of_apart a xs, fun together => (kinds_apart a xs together).1⟩

theorem mem_firsts_iff {xs : List α} (together : Together f xs) (x : α) :
    x ∈ firsts f xs ↔ xs.find? (f · = f x) = some x := by
  cases xs with
  | nil => simp [firsts]
  | cons a xs => exact (kinds_apart a xs together).2 x

/-! After a stable sort -/

section Sorted
variable {r : α → α → Prop} [DecidableRel r] (level : ∀ a b, f a = f b → r a b)
include level

theorem find_sort (xs : List α) (k : β) :
    (xs.insertionSort r).find? (f · = k) = xs.find? (f · = k) := by
  rw [← List.head?_filter, ← List.head?_filter, Rearrange.filter_sort]
  intro a b left right
  rw [decide_eq_true_eq] at left right
  exact level a b (left.trans right.symm)

variable [Std.Total r] [IsTrans α r]

omit [DecidableEq β] in
/-- Kinds stand together after the sort where they do among the elements of one place. -/
theorem together_sort_iff (xs : List α) : Together f (xs.insertionSort r) ↔
    ∀ a b c, [a, b, c].Sublist xs → r a b → r b a → f a = f c → f b = f a := by
  -- three elements of one place come in the same order before and after
  have moved : ∀ {a b c}, r a b → r b a → f a = f c →
      ([a, b, c].Sublist (xs.insertionSort r) ↔ [a, b, c].Sublist xs) := by
    intro a b c above below kind
    let place x := decide (r a x ∧ r x a)
    have here : [a, b, c].filter place = [a, b, c] := by
      refine List.filter_eq_self.mpr fun x mem => decide_eq_true ?_
      simp only [List.mem_cons, List.not_mem_nil, or_false] at mem
      rcases mem with rfl | rfl | rfl
      · exact ⟨level x x rfl, level x x rfl⟩
      · exact ⟨above, below⟩
      · exact ⟨level a x kind, level x a kind.symm⟩
    have kept : (xs.insertionSort r).filter place = xs.filter place := by
      refine Rearrange.filter_sort (fun x y left right => ?_) xs
      exact IsTrans.trans _ _ _ (of_decide_eq_true left).2 (of_decide_eq_true right).1
    constructor
    · intro triple
      have within := triple.filter place
      rw [here, kept] at within
      exact within.trans List.filter_sublist
    · intro triple
      have within := triple.filter place
      rw [here, ← kept] at within
      exact within.trans List.filter_sublist
  constructor
  · intro together a b c triple above below kind
    exact together a b c ((moved above below kind).mpr triple) kind
  · intro apart a b c triple kind
    have sorted := (List.pairwise_insertionSort r xs).sublist triple
    have above : r a b := (List.pairwise_cons.mp sorted).1 b (by simp)
    have later : r b c := (List.pairwise_cons.mp (List.pairwise_cons.mp sorted).2).1 c (by simp)
    have below : r b a := IsTrans.trans _ _ _ later (level c a kind.symm)
    exact apart a b c ((moved above below kind).mp triple) above below kind

end Sorted

end Neighbours
