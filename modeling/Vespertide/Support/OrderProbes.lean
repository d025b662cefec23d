import Mathlib.Algebra.Order.Field.Basic
import Mathlib.Data.Finset.Max
import Mathlib.Order.Compare
import Mathlib.Tactic.Linarith

/-!
Finitely many probes for all values of a linear order, as far as the values are
compared with given marks only.
-/
namespace OrderProbes

section Order
variable {α : Type} [LinearOrder α]

/-- Two values lie in the same way to every mark. -/
def Alike (marks : List α) (v w : α) : Prop := ∀ x ∈ marks, cmp v x = cmp w x

def Covers (probes marks : List α) : Prop := ∀ v, ∃ p ∈ probes, Alike marks v p

theorem alike_iff {marks : List α} {v w : α} :
    Alike marks v w ↔ ∀ x ∈ marks, (v < x ↔ w < x) ∧ (x < v ↔ x < w) := by
  refine forall₂_congr fun x mem => ?_
  constructor
  · intro same
    exact ⟨by rw [← cmp_eq_lt_iff, same, cmp_eq_lt_iff], by rw [← cmp_eq_gt_iff, same, cmp_eq_gt_iff]⟩
  · rintro ⟨below, above⟩
    obtain less | equal | greater := lt_trichotomy v x
    · rw [(cmp_eq_lt_iff v x).mpr less, (cmp_eq_lt_iff w x).mpr (below.mp less)]
    · have notBelow : ¬ w < x := fun less => equal.not_lt (below.mpr less)
      have notAbove : ¬ x < w := fun less => equal.not_gt (above.mpr less)
      rw [(cmp_eq_eq_iff v x).mpr equal,
        (cmp_eq_eq_iff w x).mpr (le_antisymm (not_lt.mp notAbove) (not_lt.mp notBelow))]
    · rw [(cmp_eq_gt_iff v x).mpr greater, (cmp_eq_gt_iff w x).mpr (above.mp greater)]

theorem last_mark (marks : List α) (v : α) : (∀ x ∈ marks, v < x) ∨
    ∃ a ∈ marks, a ≤ v ∧ ∀ x ∈ marks, x ≤ v → x ≤ a := by
  by_cases none : ∀ x ∈ marks, v < x
  · exact .inl none
  · push Not at none
    obtain ⟨b, mem, low⟩ := none
    have some : (marks.toFinset.filter (· ≤ v)).Nonempty := ⟨b, by simp [mem, low]⟩
    obtain ⟨a, held, most⟩ := Finset.exists_max_image _ id some
    simp only [Finset.mem_filter, List.mem_toFinset, id_eq, and_imp] at held most
    exact .inr ⟨a, held.1, held.2, most⟩

/-- The first mark above a value. -/
theorem first_mark (marks : List α) (v : α) : (∀ x ∈ marks, x ≤ v) ∨
    ∃ b ∈ marks, v < b ∧ ∀ x ∈ marks, v < x → b ≤ x := by
  by_cases none : ∀ x ∈ marks, x ≤ v
  · exact .inl none
  · push Not at none
    obtain ⟨a, mem, high⟩ := none
    have some : (marks.toFinset.filter (v < ·)).Nonempty := ⟨a, by simp [mem, high]⟩
    obtain ⟨b, held, least⟩ := Finset.exists_min_image _ id some
    simp only [Finset.mem_filter, List.mem_toFinset, id_eq, and_imp] at held least
    exact .inr ⟨b, held.1, held.2, least⟩

section Bounds
variable {held : α → Prop} {x y : α}

theorem closed_bounds (here : held y) :
    ((∀ a, held a → a ≤ x → a ≤ y) ∧ ∃ a, held a ∧ a ≤ y ∧ ¬ a ≤ x) ↔ x < y := by
  constructor
  · rintro ⟨-, a, -, low, high⟩
    exact lt_of_lt_of_le (not_le.mp high) low
  · intro less
    exact ⟨fun a _ low => low.trans less.le, y, here, le_rfl, not_le.mpr less⟩

theorem open_bounds (here : held x) :
    ((∀ a, held a → a < x → a < y) ∧ ∃ a, held a ∧ a < y ∧ ¬ a < x) ↔ x < y := by
  constructor
  · rintro ⟨-, a, -, low, high⟩
    exact lt_of_le_of_lt (not_lt.mp high) low
  · intro less
    exact ⟨fun a _ low => low.trans less, x, here, less, lt_irrefl x⟩

theorem mixed_bounds (here : held y) :
    ((∀ a, held a → a < x → a ≤ y) ∧ ∃ a, held a ∧ a ≤ y ∧ ¬ a < x) ↔ x ≤ y := by
  constructor
  · rintro ⟨-, a, -, low, high⟩
    exact (not_lt.mp high).trans low
  · intro lower
    exact ⟨fun a _ low => (low.trans_le lower).le, y, here, le_rfl, not_lt.mpr lower⟩

end Bounds

end Order

/-! Orders with a least value and a next value after each -/

section Successor
variable {α : Type} [LinearOrder α] (least : α) (next : α → α)

def successorProbes (marks : List α) : List α := (least :: marks) ++ (least :: marks).map next

theorem successor_covers (lowest : ∀ x, least ≤ x) (later : ∀ x, x < next x)
    (soonest : ∀ {x y}, x < y → next x ≤ y) (marks : List α) :
    Covers (successorProbes least next marks) marks := by
  intro v
  obtain none | ⟨a, mem, low, most⟩ := last_mark (least :: marks) v
  · exact absurd (none least List.mem_cons_self) (not_lt.mpr (lowest v))
  · obtain rfl | below := eq_or_lt_of_le low
    · exact ⟨a, List.mem_append_left _ mem, fun x _ => rfl⟩
    · refine ⟨next a, List.mem_append_right _ (List.mem_map_of_mem mem), alike_iff.mpr ?_⟩
      intro x held
      by_cases reached : x ≤ v
      · have under := most x (List.mem_cons_of_mem _ held) reached
        have above : x < next a := under.trans_lt (later a)
        exact ⟨iff_of_false (not_lt.mpr reached) (lt_asymm above),
          iff_of_true (under.trans_lt below) above⟩
      · have beyond := (soonest below).trans_lt (not_le.mp reached)
        exact ⟨iff_of_true (not_le.mp reached) beyond, iff_of_false (fun less => reached less.le) (lt_asymm beyond)⟩

end Successor

/-! Fields -/

section Field
variable {α : Type} [Field α] [LinearOrder α] [IsStrictOrderedRing α]

def fieldProbes (marks : List α) : List α :=
  0 :: marks ++ marks.flatMap (fun x => [x - 1, x + 1]) ++
    marks.flatMap fun a => marks.map fun b => (a + b) / 2

theorem field_covers (marks : List α) : Covers (fieldProbes marks) marks := by
  intro v
  obtain noneBelow | ⟨a, memA, low, most⟩ := last_mark marks v
  · obtain noneAbove | ⟨b, memB, high, soonest⟩ := first_mark marks v
    · refine ⟨0, by simp [fieldProbes], fun x mem => ?_⟩
      exact absurd (noneBelow x mem) (not_lt.mpr (noneAbove x mem))
    · -- below all marks
      refine ⟨b - 1, ?_, alike_iff.mpr fun x mem => ?_⟩
      · simp only [fieldProbes, List.mem_append, List.mem_flatMap]
        exact .inl (.inr ⟨b, memB, by simp⟩)
      · have after := soonest x mem (noneBelow x mem)
        have under : b - 1 < x := by linarith
        exact ⟨iff_of_true (noneBelow x mem) under,
          iff_of_false (lt_asymm (noneBelow x mem)) (lt_asymm under)⟩
  · obtain rfl | below := eq_or_lt_of_le low
    · exact ⟨a, by simp [fieldProbes, memA], fun x _ => rfl⟩
    · obtain noneAbove | ⟨b, memB, high, soonest⟩ := first_mark marks v
      · -- above all marks
        refine ⟨a + 1, ?_, alike_iff.mpr fun x mem => ?_⟩
        · simp only [fieldProbes, List.mem_append, List.mem_flatMap]
          exact .inl (.inr ⟨a, memA, by simp⟩)
        · have before := most x mem (noneAbove x mem)
          have above : x < a + 1 := by linarith
          exact ⟨iff_of_false (not_lt.mpr (noneAbove x mem)) (lt_asymm above),
            iff_of_true (before.trans_lt below) above⟩
      · -- between two marks
        refine ⟨(a + b) / 2, ?_, alike_iff.mpr fun x mem => ?_⟩
        · simp only [fieldProbes, List.mem_append, List.mem_flatMap, List.mem_map]
          exact .inr ⟨a, memA, b, memB, rfl⟩
        · by_cases reached : x ≤ v
          · have before := most x mem reached
            have above : x < (a + b) / 2 := by linarith
            exact ⟨iff_of_false (not_lt.mpr reached) (lt_asymm above),
              iff_of_true (before.trans_lt below) above⟩
          · have after := soonest x mem (not_le.mp reached)
            have under : (a + b) / 2 < x := by linarith
            exact ⟨iff_of_true (not_le.mp reached) under,
              iff_of_false (fun less => reached less.le) (lt_asymm under)⟩

end Field

end OrderProbes
