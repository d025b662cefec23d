import Mathlib.Data.Option.Basic
import Mathlib.Logic.Function.Basic

/-!
Objects under their names. A name is created while it is free, and dropped or
renamed while it is taken; a run of such steps stops at the first one refused.
-/
namespace Registry
variable {κ α β : Type} [DecidableEq κ]

abbrev Names (κ α : Type) := κ → Option α

def create (r : Names κ α) (k : κ) (a : α) : Option (Names κ α) :=
  if r k = none then some (Function.update r k (some a)) else none

def drop (r : Names κ α) (k : κ) : Option (Names κ α) :=
  if r k = none then none else some (Function.update r k none)

def rename (r : Names κ α) (old new : κ) : Option (Names κ α) :=
  if r old = none ∨ r new ≠ none then none
  else some (Function.update (Function.update r new (r old)) old none)

def runSteps (step : σ → ι → Option σ) (s : σ) : List ι → Option σ
  | [] => some s
  | i :: rest => (step s i).bind fun s' => runSteps step s' rest

theorem create_free {r : Names κ α} {k : κ} (free : r k = none) (a : α) :
    create r k a = some (Function.update r k (some a)) := if_pos free

theorem drop_taken {r : Names κ α} {k : κ} {a : α} (taken : r k = some a) :
    drop r k = some (Function.update r k none) := by
  rw [drop, if_neg (by simp [taken])]

theorem rename_taken {r : Names κ α} {old new : κ} {a : α} (taken : r old = some a)
    (free : r new = none) :
    rename r old new = some (Function.update (Function.update r new (some a)) old none) := by
  rw [rename, if_neg (by simp [taken, free]), taken]

theorem create_some {r r' : Names κ α} {k : κ} {a : α} :
    create r k a = some r' ↔ r k = none ∧ Function.update r k (some a) = r' := by
  simp [create]

theorem drop_some {r r' : Names κ α} {k : κ} :
    drop r k = some r' ↔ r k ≠ none ∧ Function.update r k none = r' := by
  simp [drop]

theorem rename_some {r r' : Names κ α} {old new : κ} : rename r old new = some r' ↔
    r old ≠ none ∧ r new = none ∧
      Function.update (Function.update r new (r old)) old none = r' := by
  simp [rename, and_assoc]

/-- An object is replaced by way of a name that is free. -/
theorem replace_by_way {r : Names κ α} {k temporary : κ} {a : α} (apart : k ≠ temporary)
    (taken : r k = some a) (free : r temporary = none) (b : α) :
    ((create r temporary b).bind fun s => (drop s k).bind fun s => rename s temporary k) =
      some (Function.update r k (some b)) := by
  rw [create_free free, Option.bind_some]
  have still : Function.update r temporary (some b) k = some a := by
    rw [Function.update_of_ne apart, taken]
  rw [drop_taken still, Option.bind_some]
  have held : Function.update (Function.update r temporary (some b)) k none temporary = some b := by
    rw [Function.update_of_ne apart.symm, Function.update_self]
  rw [rename_taken held (Function.update_self ..)]
  congr 1
  funext name
  by_cases first : name = temporary
  · subst first
    rw [Function.update_self, Function.update_of_ne apart.symm, free]
  · by_cases second : name = k
    · subst second
      simp [first]
    · simp [first, second]

theorem run_steps_append {step : σ → ι → Option σ} (s : σ) (before after : List ι) :
    runSteps step s (before ++ after) =
      (runSteps step s before).bind fun s' => runSteps step s' after := by
  induction before generalizing s with
  | nil => rfl
  | cons i before ih =>
    rw [List.cons_append, runSteps, runSteps, Option.bind_assoc]
    congr 1
    funext s'
    exact ih s'

theorem run_steps_idle {step : σ → ι → Option σ} {s : σ} {is : List ι}
    (idle : ∀ i ∈ is, step s i = some s) : runSteps step s is = some s := by
  induction is with
  | nil => rfl
  | cons i rest ih =>
    rw [runSteps, idle i List.mem_cons_self, Option.bind_some]
    exact ih fun j mem => idle j (List.mem_cons_of_mem i mem)

theorem run_steps_invariant {P : σ → Prop} {step : σ → ι → Option σ} {is : List ι}
    (preserved : ∀ i ∈ is, ∀ s s', P s → step s i = some s' → P s') {s s' : σ}
    (holds : P s) (ran : runSteps step s is = some s') : P s' := by
  induction is generalizing s with
  | nil => exact Option.some.inj ran ▸ holds
  | cons i rest ih =>
    obtain ⟨next, first, later⟩ := Option.bind_eq_some_iff.mp ran
    exact ih (fun j mem => preserved j (List.mem_cons_of_mem i mem))
      (preserved i List.mem_cons_self s next holds first) later

theorem run_steps_keep {β : Type} {view : σ → β} {step : σ → ι → Option σ} {is : List ι}
    (keeps : ∀ i ∈ is, ∀ s s', step s i = some s' → view s' = view s) {s s' : σ}
    (ran : runSteps step s is = some s') : view s' = view s :=
  run_steps_invariant (P := fun reached => view reached = view s)
    (fun i mem reached next same taken => (keeps i mem reached next taken).trans same) rfl ran

end Registry
