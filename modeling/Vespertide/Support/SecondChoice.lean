import Mathlib.Data.List.Induction
import Mathlib.Data.List.Nodup

/-!
Names given one after the other: an element that is taken gives way to its
second choice, and the second choice is not looked up again. What is taken can
be read off from the elements alone.
-/
namespace SecondChoice
variable {α : Type} {next : α → α}

/-- Taken by an element itself, or as the second choice of one that was taken before. -/
inductive Taken (next : α → α) : List α → α → Prop
  | own {before : List α} {x : α} : x ∈ before → Taken next before x
  | moved {before after : List α} {x : α} : Taken next before x →
      Taken next (before ++ x :: after) (next x)

theorem taken_concat {xs : List α} {x y : α} :
    Taken next (xs ++ [x]) y ↔ Taken next xs y ∨ y = x ∨ Taken next xs x ∧ y = next x := by
  constructor
  · generalize whole : xs ++ [x] = ys
    rintro (listed | @⟨before, after, z, taken⟩)
    · rw [← whole, List.mem_append, List.mem_singleton] at listed
      rcases listed with earlier | same
      · exact .inl (.own earlier)
      · exact .inr (.inl same)
    · rcases List.eq_nil_or_concat after with rfl | ⟨after, last, rfl⟩
      · obtain ⟨rfl, same⟩ := List.append_inj' whole rfl
        obtain rfl := List.singleton_inj.mp same
        exact .inr (.inr ⟨taken, rfl⟩)
      · rw [List.concat_eq_append, ← List.cons_append, ← List.append_assoc] at whole
        obtain ⟨rfl, -⟩ := List.append_inj' whole rfl
        exact .inl (.moved taken)
  · rintro (earlier | rfl | ⟨taken, rfl⟩)
    · cases earlier with
      | own listed => exact .own (List.mem_append_left _ listed)
      | moved taken =>
        rw [List.append_assoc, List.cons_append]
        exact .moved taken
    · exact .own (List.mem_append_right _ List.mem_cons_self)
    · exact .moved taken

variable [DecidableEq α]

def choose (next : α → α) : List α → List α → List α
  | _, [] => []
  | used, x :: rest =>
      let name := if x ∈ used then next x else x
      name :: choose next (used ++ [name]) rest

theorem choose_append (ys : List α) : ∀ (xs used : List α), choose next used (xs ++ ys) =
    choose next used xs ++ choose next (used ++ choose next used xs) ys
  | [], used => by simp [choose]
  | x :: xs, used => by
    rw [List.cons_append, choose, choose, choose_append ys xs, List.cons_append,
      List.append_assoc, List.singleton_append]

theorem choose_concat (xs : List α) (x : α) : choose next [] (xs ++ [x]) =
    choose next [] xs ++ [if x ∈ choose next [] xs then next x else x] := by
  rw [choose_append, choose, choose, List.nil_append]

theorem mem_choose_iff {xs : List α} : ∀ {y : α}, y ∈ choose next [] xs ↔ Taken next xs y := by
  induction xs using List.reverseRecOn with
  | nil =>
    intro y
    refine iff_of_false List.not_mem_nil ?_
    generalize none_left : ([] : List α) = ys
    rintro (listed | taken)
    · exact List.not_mem_nil (none_left ▸ listed)
    · cases List.append_eq_nil_iff.mp none_left.symm |>.2
  | append_singleton xs x ih =>
    intro y
    rw [choose_concat, List.mem_append, List.mem_singleton, taken_concat, ih]
    by_cases taken : x ∈ choose next [] xs
    · rw [if_pos taken]
      have before := ih.mp taken
      refine or_congr_right' fun away => ⟨fun same => .inr ⟨before, same⟩, ?_⟩
      rintro (rfl | ⟨-, same⟩)
      · exact absurd before away
      · exact same
    · rw [if_neg taken]
      have free : ¬ Taken next xs x := fun before => taken (ih.mpr before)
      simp [free]

/-- Distinct unless some element comes to find both of its choices taken. -/
theorem choose_nodup_iff {xs : List α} : (choose next [] xs).Nodup ↔
    ∀ before x after, xs = before ++ x :: after →
      ¬ (Taken next before x ∧ Taken next before (next x)) := by
  induction xs using List.reverseRecOn with
  | nil => simp [choose]
  | append_singleton xs x ih =>
    have last : (if x ∈ choose next [] xs then next x else x) ∉ choose next [] xs ↔
        ¬ (Taken next xs x ∧ Taken next xs (next x)) := by
      rw [← mem_choose_iff, ← mem_choose_iff]
      split
      · rename_i taken
        simp [taken]
      · rename_i free
        simp [free]
    rw [choose_concat, List.nodup_append, ih]
    constructor
    · rintro ⟨earlier, -, apart⟩ before y after split
      rcases List.eq_nil_or_concat after with rfl | ⟨after, z, rfl⟩
      · obtain ⟨rfl, same⟩ := List.append_inj' split rfl
        obtain rfl := List.singleton_inj.mp same
        exact last.mp fun listed => apart _ listed _ List.mem_cons_self rfl
      · rw [List.concat_eq_append, ← List.cons_append, ← List.append_assoc] at split
        exact earlier before y after (List.append_inj' split rfl).1
    · intro every
      refine ⟨fun before y after split => every before y (after ++ [x]) ?_,
        List.nodup_singleton _, ?_⟩
      · rw [split, List.append_assoc, List.cons_append]
      · intro y listed z same
        rw [List.mem_singleton.mp same]
        exact fun equal => last.mpr (every xs x [] rfl) (equal ▸ listed)

end SecondChoice
