import Mathlib.Data.List.Forall2

/-!
Dialogues: computations that ask a world which answers and changes, and that may
break off. What holds of every value that a dialogue can end with is read off its
parts, whatever the world answers.
-/
namespace Dialogue
variable {σ ε ε' α β γ : Type}

abbrev Asking (σ ε α : Type) := StateT σ (Except ε) α

/-- In some world the dialogue ends with `a`. -/
def Ends (x : Asking σ ε α) (a : α) : Prop := ∃ s s', x s = .ok (a, s')

theorem bind_ends {x : Asking σ ε α} {f : α → Asking σ ε β} {b : β} (ends : Ends (x >>= f) b) :
    ∃ a, Ends x a ∧ Ends (f a) b := by
  obtain ⟨s, s', ended⟩ := ends
  change (x s >>= fun p => f p.1 p.2) = .ok (b, s') at ended
  cases asked : x s with
  | error e =>
    rw [asked] at ended
    cases ended
  | ok p =>
    rw [asked] at ended
    exact ⟨p.1, ⟨s, p.2, asked⟩, p.2, s', ended⟩

theorem pure_ends {a b : α} (ends : Ends (pure a : Asking σ ε α) b) : b = a := by
  obtain ⟨s, s', ended⟩ := ends
  exact (Prod.mk.inj (Except.ok.inj ended)).1.symm

theorem map_ends {x : Asking σ ε α} {f : α → β} {b : β} (ends : Ends (f <$> x) b) :
    ∃ a, Ends x a ∧ b = f a := by
  rw [← bind_pure_comp] at ends
  obtain ⟨a, asked, rest⟩ := bind_ends ends
  exact ⟨a, asked, pure_ends rest⟩

def breakOff (e : ε) : Asking σ ε α := fun _ => .error e

theorem break_off_ends {e : ε} {a : α} : ¬ Ends (breakOff e : Asking σ ε α) a := by
  rintro ⟨s, s', ended⟩
  cases ended

/-- The same dialogue with its failures renamed. -/
def within (f : ε → ε') (x : Asking σ ε α) : Asking σ ε' α := fun s => (x s).mapError f

theorem within_ends {f : ε → ε'} {x : Asking σ ε α} {a : α} (ends : Ends (within f x) a) :
    Ends x a := by
  obtain ⟨s, s', ended⟩ := ends
  unfold within at ended
  cases asked : x s with
  | error e =>
    rw [asked] at ended
    cases ended
  | ok p =>
    rw [asked] at ended
    obtain rfl := Except.ok.inj ended
    exact ⟨s, s', asked⟩

/-- A computation that asks nothing. -/
def settled (f : ε → ε') : Except ε α → Asking σ ε' α
  | .ok a => pure a
  | .error e => breakOff (f e)

theorem settled_ends {f : ε → ε'} {x : Except ε α} {a : α}
    (ends : Ends (settled f x : Asking σ ε' α) a) : x = .ok a := by
  cases x with
  | error e => exact absurd ends break_off_ends
  | ok b => rw [pure_ends ends]

theorem fold_keeps {P : β → Prop} {step : β → α → Asking σ ε β} {as : List α}
    (keeps : ∀ a ∈ as, ∀ b c, P b → Ends (step b a) c → P c) {b c : β}
    (holds : P b) (ends : Ends (as.foldlM step b) c) : P c := by
  induction as generalizing b with
  | nil => exact pure_ends ends ▸ holds
  | cons a rest ih =>
    rw [List.foldlM_cons] at ends
    obtain ⟨next, first, later⟩ := bind_ends ends
    exact ih (fun d mem => keeps d (List.mem_cons_of_mem a mem))
      (keeps a List.mem_cons_self b next holds first) later

/-- A series of questions, each answer put in before the next question is asked. -/
theorem fold_answers {ask : α → Asking σ ε γ} {put : β → α → γ → β} {as : List α} {b c : β}
    (ends : Ends (as.foldlM (fun b a => put b a <$> ask a) b) c) :
    ∃ answers, List.Forall₂ (fun a answer => Ends (ask a) answer) as answers ∧
      c = (as.zip answers).foldl (fun b p => put b p.1 p.2) b := by
  induction as generalizing b with
  | nil => exact ⟨[], .nil, pure_ends ends⟩
  | cons a rest ih =>
    rw [List.foldlM_cons] at ends
    obtain ⟨next, first, later⟩ := bind_ends ends
    obtain ⟨answer, asked, rfl⟩ := map_ends first
    obtain ⟨answers, each, rfl⟩ := ih later
    exact ⟨answer :: answers, .cons asked each, rfl⟩

end Dialogue
