import Mathlib.Data.List.Induction

/-!
Edits at positions of a list, made one after the other. Every entry sees the
edits of its own position alone, in the order in which they are made.
-/
namespace Edits
variable {α β : Type}

/-- An edit past the end changes nothing. -/
abbrev Edit (α : Type) := Nat × (α → α)

def run (edits : List (Edit α)) (xs : List α) : List α :=
  edits.foldl (fun xs e => xs.modify e.1 e.2) xs

def at_ (edits : List (Edit α)) (i : Nat) (x : α) : α :=
  (edits.filter (·.1 = i)).foldl (fun x e => e.2 x) x

theorem get_run (edits : List (Edit α)) (xs : List α) (i : Nat) :
    (run edits xs)[i]? = (xs[i]?).map (at_ edits i) := by
  induction edits generalizing xs with
  | nil =>
    have still : at_ [] i = (id : α → α) := rfl
    simp [run, still]
  | cons e rest ih =>
    have step : run (e :: rest) xs = run rest (xs.modify e.1 e.2) := rfl
    rw [step, ih, List.getElem?_modify]
    by_cases here : e.1 = i
    · cases xs[i]? <;> simp [at_, here]
    · cases xs[i]? <;> simp [at_, here]

theorem at_untouched {edits : List (Edit α)} {i : Nat} (untouched : ∀ e ∈ edits, e.1 ≠ i)
    (x : α) : at_ edits i x = x := by
  have none_here : edits.filter (·.1 = i) = [] := by
    rw [List.filter_eq_nil_iff]
    intro e mem
    simpa using untouched e mem
  rw [at_, none_here, List.foldl_nil]

/-- Where every position is edited once, the edit is the whole story of its position. -/
theorem at_only {edits : List (Edit α)} (apart : (edits.map Prod.fst).Nodup) {e : Edit α}
    (mem : e ∈ edits) (x : α) : at_ edits e.1 x = e.2 x := by
  obtain ⟨before, after, rfl⟩ := List.append_of_mem mem
  simp only [List.map_append, List.map_cons, List.nodup_append, List.nodup_cons] at apart
  obtain ⟨_, ⟨not_after, _⟩, between⟩ := apart
  have none_before : before.filter (·.1 = e.1) = [] := by
    rw [List.filter_eq_nil_iff]
    intro f earlier
    simpa using between f.1 (List.mem_map_of_mem earlier) e.1 List.mem_cons_self
  have none_after : after.filter (·.1 = e.1) = [] := by
    rw [List.filter_eq_nil_iff]
    intro f later same
    exact not_after (of_decide_eq_true same ▸ List.mem_map_of_mem later)
  simp [at_, List.filter_append, none_before, none_after]

theorem run_view {view : α → β} {edits : List (Edit α)}
    (kept : ∀ e ∈ edits, ∀ x, view (e.2 x) = view x) (xs : List α) :
    (run edits xs).map view = xs.map view := by
  induction edits generalizing xs with
  | nil => rfl
  | cons e rest ih =>
    have step : run (e :: rest) xs = run rest (xs.modify e.1 e.2) := rfl
    rw [step, ih fun f mem => kept f (List.mem_cons_of_mem e mem)]
    refine List.ext_getElem? fun i => ?_
    rw [List.getElem?_map, List.getElem?_map, List.getElem?_modify]
    cases xs[i]? with
    | none => rfl
    | some x =>
      by_cases here : e.1 = i
      · simp [here, kept e List.mem_cons_self]
      · simp [here]

end Edits
