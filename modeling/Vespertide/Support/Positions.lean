import Mathlib.Data.List.Basic

/-!
Where an element of a concatenation stands: in one of its parts, after all the
parts before it.
-/
namespace Positions
variable {α β ι : Type}

theorem split_append {xs ys before after : List α} {a : α}
    (split : xs ++ ys = before ++ a :: after) :
    (∃ rest, xs = before ++ a :: rest) ∨ ∃ front, before = xs ++ front ∧ ys = front ++ a :: after := by
  rcases List.append_eq_append_iff.mp split with ⟨front, same, rest⟩ | ⟨rest, same, tail⟩
  · exact .inr ⟨front, same, rest⟩
  · cases rest with
    | nil => exact .inr ⟨[], by simpa using same.symm, by simpa using tail.symm⟩
    | cons b rest =>
      obtain ⟨rfl, _⟩ := List.cons.inj tail
      exact .inl ⟨rest, same⟩

theorem split_after {xs ys before after : List α} {a : α} (absent : a ∉ xs)
    (split : xs ++ ys = before ++ a :: after) :
    ∃ front, before = xs ++ front ∧ ys = front ++ a :: after := by
  rcases split_append split with ⟨rest, rfl⟩ | later
  · exact absurd (by simp) absent
  · exact later

theorem split_before {xs ys before after : List α} {a : α} (absent : a ∉ ys)
    (split : xs ++ ys = before ++ a :: after) : ∃ rest, xs = before ++ a :: rest := by
  rcases split_append split with earlier | ⟨front, _, rfl⟩
  · exact earlier
  · exact absurd (by simp) absent

theorem split_flatMap {names : List ι} {block : ι → List α} {before after : List α}
    {a : α} (split : names.flatMap block = before ++ a :: after) :
    ∃ (done : List ι) (n : ι) (todo : List ι) (front rest : List α),
      names = done ++ n :: todo ∧ block n = front ++ a :: rest ∧
        before = done.flatMap block ++ front := by
  induction names generalizing before with
  | nil => simp at split
  | cons m names ih =>
    rw [List.flatMap_cons] at split
    rcases split_append split with ⟨rest, own⟩ | ⟨front, rfl, later⟩
    · exact ⟨[], m, names, before, rest, rfl, own, rfl⟩
    · obtain ⟨done, n, todo, front', rest, rfl, here, rfl⟩ := ih later
      exact ⟨m :: done, n, todo, front', rest, rfl, here, by simp⟩

theorem split_map {xs : List α} {f : α → β} {before after : List β} {b : β}
    (split : xs.map f = before ++ b :: after) :
    ∃ done x todo, xs = done ++ x :: todo ∧ f x = b ∧ before = done.map f := by
  obtain ⟨done, rest, rfl, rfl, tail⟩ := List.map_eq_append_iff.mp split
  obtain ⟨x, todo, rfl, here, _⟩ := List.map_eq_cons_iff.mp tail
  exact ⟨done, x, todo, rfl, here, rfl⟩

end Positions
