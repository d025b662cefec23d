import Mathlib.Data.List.Dedup
import Mathlib.Data.List.Nodup

/-!
Values grouped by their key, in the order in which they come: when the groups are
a given family of lists.
-/
namespace Grouping

variable {κ α : Type} [DecidableEq κ]

def members (pairs : List (κ × α)) (k : κ) : List α := (pairs.filter (·.1 = k)).map (·.2)

def grouped (pairs : List (κ × α)) : List (κ × List α) :=
  (pairs.map (·.1)).dedup.map fun k => (k, members pairs k)

theorem mem_grouped_iff {pairs : List (κ × α)} {group : κ × List α} :
    group ∈ grouped pairs ↔ group.2 ≠ [] ∧ members pairs group.1 = group.2 := by
  obtain ⟨k, values⟩ := group
  have present : k ∈ pairs.map (·.1) ↔ members pairs k ≠ [] := by
    simp [members]
  simp only [grouped, List.mem_map, List.mem_dedup, Prod.mk.injEq]
  constructor
  · rintro ⟨key, mem, rfl, rfl⟩
    exact ⟨present.mp (List.mem_map.mpr mem), rfl⟩
  · rintro ⟨filled, rfl⟩
    exact ⟨k, List.mem_map.mp (present.mpr filled), rfl, rfl⟩

theorem grouped_nodup (pairs : List (κ × α)) : (grouped pairs).Nodup :=
  (List.nodup_dedup _).map fun _ _ same => (Prod.mk.inj same).1

/-- Keys of no group aside, the groups are a family of lists under distinct keys where each
    list has its members. -/
theorem grouped_perm_iff {pairs : List (κ × α)} {family : List (κ × List α)}
    (distinct : (family.map (·.1)).Nodup)
    (known : ∀ pair ∈ pairs, pair.1 ∈ family.map (·.1)) :
    (grouped pairs).Perm family ↔
      ∀ group ∈ family, group.2 ≠ [] ∧ members pairs group.1 = group.2 := by
  rw [List.perm_ext_iff_of_nodup (grouped_nodup pairs) distinct.of_map]
  constructor
  · intro same group mem
    exact mem_grouped_iff.mp ((same group).mpr mem)
  · intro exact_members group
    refine ⟨fun mem => ?_, fun mem => mem_grouped_iff.mpr (exact_members group mem)⟩
    obtain ⟨filled, listed⟩ := mem_grouped_iff.mp mem
    have present : group.1 ∈ family.map (·.1) := by
      obtain ⟨value, member⟩ := List.exists_mem_of_ne_nil _ filled
      rw [← listed] at member
      obtain ⟨pair, found, rfl⟩ := List.mem_map.mp member
      obtain ⟨in_pairs, key⟩ := List.mem_filter.mp found
      exact of_decide_eq_true key ▸ known pair in_pairs
    obtain ⟨other, in_family, key⟩ := List.mem_map.mp present
    have values : other.2 = group.2 := by
      rw [← (exact_members other in_family).2, key, listed]
    exact (Prod.ext key values : other = group) ▸ in_family

theorem members_flatMap (xs : List α) (keys : α → List κ) (k : κ) :
    members (xs.flatMap fun x => (keys x).map (·, x)) k =
      xs.flatMap fun x => List.replicate ((keys x).count k) x := by
  have own : ∀ (x : α) (keys : List κ),
      members (keys.map (·, x)) k = List.replicate (keys.count k) x := by
    intro x keys
    induction keys with
    | nil => rfl
    | cons key keys ih =>
      by_cases same : key = k
      · subst same
        simpa [members, List.replicate_succ] using ih
      · simpa [members, same] using ih
  induction xs with
  | nil => rfl
  | cons x xs ih =>
    rw [List.flatMap_cons, List.flatMap_cons, ← own, ← ih]
    simp [members]

end Grouping
