import Mathlib.Data.List.Basic
import Mathlib.Logic.Function.Basic

/-!
A machine whose state is a family of components, and whose actions each act on
one of them. A run is determined by the runs of the components on the actions
that are theirs, and it gets through exactly when each of these does.
-/
namespace Components
variable {κ A S : Type} (step : A → S → Option S)

def run (actions : List A) (s : S) : Option S := actions.foldlM (fun s a => step a s) s

variable [DecidableEq κ] (key : A → κ)

def stepAll (a : A) (f : κ → S) : Option (κ → S) :=
  (step a (f (key a))).map (Function.update f (key a))

def runAll (actions : List A) (f : κ → S) : Option (κ → S) := run (stepAll step key) actions f

def actionsAt (k : κ) (actions : List A) : List A := actions.filter (key · = k)

variable {step key}

@[simp] theorem run_nil (s : S) : run step [] s = some s := rfl

@[simp] theorem run_cons (a : A) (actions : List A) (s : S) :
    run step (a :: actions) s = (step a s).bind (run step actions) := rfl

theorem run_append (first second : List A) (s : S) :
    run step (first ++ second) s = (run step first s).bind (run step second) := by
  induction first generalizing s with
  | nil => rfl
  | cons a first ih =>
    simp only [List.cons_append, run_cons]
    cases step a s with
    | none => rfl
    | some s' => exact ih s'

@[simp] theorem actions_at_append (k : κ) (first second : List A) :
    actionsAt key k (first ++ second) = actionsAt key k first ++ actionsAt key k second := by
  simp [actionsAt]

theorem actions_at_own {k : κ} {actions : List A} (own : ∀ a ∈ actions, key a = k) :
    actionsAt key k actions = actions := by
  simpa [actionsAt, List.filter_eq_self] using own

theorem actions_at_other {k : κ} {actions : List A} (other : ∀ a ∈ actions, key a ≠ k) :
    actionsAt key k actions = [] := by
  simpa [actionsAt, List.filter_eq_nil_iff] using other

section Blocks
variable {ι : Type} {index : ι → κ} {items : List ι} {block : ι → List A}
  (own : ∀ i ∈ items, ∀ a ∈ block i, key a = index i)
include own

theorem actions_at_absent_block {k : κ} (absent : k ∉ items.map index) :
    actionsAt key k (items.flatMap block) = [] := by
  apply actions_at_other
  intro a mem
  obtain ⟨i, listed, here⟩ := List.mem_flatMap.mp mem
  rw [own i listed a here]
  intro same
  exact absent (same ▸ List.mem_map_of_mem listed)

/-- Of the blocks of distinct components each is what its component gets to do. -/
theorem actions_at_block (nodup : (items.map index).Nodup) {i : ι} (mem : i ∈ items) :
    actionsAt key (index i) (items.flatMap block) = block i := by
  induction items with
  | nil => cases mem
  | cons j items ih =>
    obtain ⟨fresh, rest⟩ := List.nodup_cons.mp nodup
    obtain ⟨head, tail⟩ := List.forall_mem_cons.mp own
    rw [List.flatMap_cons, actions_at_append]
    rcases List.mem_cons.mp mem with rfl | later
    · rw [actions_at_own head, actions_at_absent_block tail fresh, List.append_nil]
    · have other : ∀ a ∈ block j, key a ≠ index i := by
        intro a here same
        rw [head a here] at same
        exact fresh (same ▸ List.mem_map_of_mem later)
      rw [actions_at_other other, ih tail rest later, List.nil_append]

end Blocks

theorem run_all_some_iff (actions : List A) (f g : κ → S) :
    runAll step key actions f = some g ↔
      ∀ k, run step (actionsAt key k actions) (f k) = some (g k) := by
  induction actions generalizing f with
  | nil => simp [runAll, actionsAt, funext_iff]
  | cons a actions ih =>
    cases moved : step a (f (key a)) with
    | none =>
      simp only [runAll, run_cons, stepAll, moved, Option.map_none, Option.bind_none, reduceCtorEq,
        false_iff, not_forall]
      exact ⟨key a, by simp [actionsAt, moved]⟩
    | some s =>
      have rest := ih (Function.update f (key a) s)
      simp only [runAll, run_cons, stepAll, moved, Option.map_some, Option.bind_some] at rest ⊢
      rw [rest]
      refine forall_congr' fun k => ?_
      by_cases here : key a = k
      · subst here
        simp [actionsAt, moved]
      · have elsewhere : k ≠ key a := Ne.symm here
        simp [actionsAt, here, elsewhere]

theorem run_all_isSome_iff (actions : List A) (f : κ → S) :
    (∃ g, runAll step key actions f = some g) ↔
      ∀ k, ∃ s, run step (actionsAt key k actions) (f k) = some s := by
  simp only [run_all_some_iff]
  constructor
  · intro h k
    obtain ⟨g, hg⟩ := h
    exact ⟨g k, hg k⟩
  · intro h
    choose g hg using h
    exact ⟨g, hg⟩

end Components
