import Mathlib.Data.List.Nodup
import Mathlib.Data.String.Basic

/-!
Names that are not taken yet. Candidates are tried one after the other; there
are never more of them taken than there are names.
-/
namespace FreshName

theorem numeral_injective : Function.Injective fun n : ℕ => toString n := by
  intro m n same
  have digits := congrArg String.toList same
  have value := congrArg (Nat.ofDigitChars 10 · 0) digits
  simpa [Nat.toString_eq_repr, Nat.toList_repr] using value

theorem append_cancel {s t t' : String} (same : s ++ t = s ++ t') : t = t' := by
  have lists := congrArg String.toList same
  rw [String.toList_append, String.toList_append] at lists
  exact String.toList_inj.mp (List.append_cancel_left lists)

theorem numbered_injective (s : String) : Function.Injective fun n : ℕ => s ++ toString n :=
  fun _ _ same => numeral_injective (append_cancel same)

def search (candidate : ℕ → String) (taken : List String) : ℕ → ℕ → String
  | 0, index => candidate index
  | tries + 1, index =>
      if candidate index ∈ taken then search candidate taken tries (index + 1)
      else candidate index

def first (candidate : ℕ → String) (taken : List String) (index : ℕ) : String :=
  search candidate taken taken.length index

section Fresh
variable {candidate : ℕ → String} {taken : List String}

theorem search_taken : ∀ {tries index : ℕ}, search candidate taken tries index ∈ taken →
    ∀ i ≤ tries, candidate (index + i) ∈ taken
  | 0, index, mem, i, le => by
    obtain rfl := Nat.le_zero.mp le
    exact mem
  | tries + 1, index, mem, i, le => by
    rw [search] at mem
    split at mem
    · rename_i here
      cases i with
      | zero => exact here
      | succ i =>
        rw [Nat.add_succ, ← Nat.succ_add]
        exact search_taken mem i (Nat.le_of_succ_le_succ le)
    · rename_i away
      exact absurd mem away

theorem first_fresh (injective : Function.Injective candidate) (index : ℕ) :
    first candidate taken index ∉ taken := by
  intro mem
  let tried := (List.range (taken.length + 1)).map fun i => candidate (index + i)
  have nodup : tried.Nodup := by
    refine List.nodup_range.map fun a b same => ?_
    exact Nat.add_left_cancel (injective same)
  have within : tried ⊆ taken := by
    intro name listed
    obtain ⟨i, below, rfl⟩ := List.mem_map.mp listed
    exact search_taken mem i (Nat.le_of_lt_succ (List.mem_range.mp below))
  have bound := nodup.length_le_of_subset within
  simp [tried] at bound

/-- Everything before the candidate that is taken up is taken. -/
theorem search_least : ∀ (tries index : ℕ), ∃ k, index ≤ k ∧
    search candidate taken tries index = candidate k ∧
      ∀ j, index ≤ j → j < k → candidate j ∈ taken
  | 0, index => ⟨index, Nat.le_refl _, rfl, fun j low high => absurd high (Nat.not_lt.mpr low)⟩
  | tries + 1, index => by
    by_cases here : candidate index ∈ taken
    · obtain ⟨k, above, found, before⟩ := search_least tries (index + 1)
      refine ⟨k, Nat.le_of_succ_le above, by rw [search, if_pos here, found], ?_⟩
      intro j low high
      rcases Nat.eq_or_lt_of_le low with rfl | later
      · exact here
      · exact before j later high
    · refine ⟨index, Nat.le_refl _, by rw [search, if_neg here], ?_⟩
      exact fun j low high => absurd high (Nat.not_lt.mpr low)

theorem first_congr {taken' : List String} (injective : Function.Injective candidate)
    (same : ∀ i, candidate i ∈ taken ↔ candidate i ∈ taken') (index : ℕ) :
    first candidate taken index = first candidate taken' index := by
  obtain ⟨k, above, found, before⟩ := @search_least candidate taken taken.length index
  obtain ⟨k', above', found', before'⟩ := @search_least candidate taken' taken'.length index
  have fresh : candidate k ∉ taken := found ▸ first_fresh injective index
  have fresh' : candidate k' ∉ taken' := found' ▸ first_fresh injective index
  have equal : k = k' := by
    rcases Nat.lt_trichotomy k k' with less | equal | more
    · exact absurd ((same k).mpr (before' k above less)) fresh
    · exact equal
    · exact absurd ((same k').mp (before k' above' more)) fresh'
  rw [first, first, found, found', equal]

end Fresh

end FreshName
