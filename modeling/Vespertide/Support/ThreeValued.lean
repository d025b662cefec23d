import Mathlib.Data.List.Basic

/-!
The truth values of SQL: true, false, and unknown, which is written as `none`.
-/
namespace ThreeValued

abbrev Truth := Option Bool

def not (a : Truth) : Truth := a.map Bool.not

/-- Unknown, unless one side is false. -/
def and : Truth → Truth → Truth
  | some false, _ => some false
  | _, some false => some false
  | some true, some true => some true
  | _, _ => none

def or : Truth → Truth → Truth
  | some true, _ => some true
  | _, some true => some true
  | some false, some false => some false
  | _, _ => none

def all (parts : List Truth) : Truth := parts.foldr and (some true)

def any (parts : List Truth) : Truth := parts.foldr or (some false)

theorem and_true_iff (a b : Truth) : and a b = some true ↔ a = some true ∧ b = some true := by
  cases a with
  | none => cases b with
    | none => simp [and]
    | some b => cases b <;> simp [and]
  | some a => cases a <;> cases b with
    | none => simp [and]
    | some b => cases b <;> simp [and]

theorem and_false_iff (a b : Truth) :
    and a b = some false ↔ a = some false ∨ b = some false := by
  rcases a with _ | _ | _ <;> rcases b with _ | _ | _ <;> simp [and]

theorem all_true_iff (parts : List Truth) : all parts = some true ↔ ∀ a ∈ parts, a = some true := by
  induction parts with
  | nil => simp [all]
  | cons a parts ih =>
    have split : all (a :: parts) = and a (all parts) := rfl
    rw [split, and_true_iff, ih, List.forall_mem_cons]

theorem all_false_iff (parts : List Truth) :
    all parts = some false ↔ ∃ a ∈ parts, a = some false := by
  induction parts with
  | nil => simp [all]
  | cons a parts ih =>
    have split : all (a :: parts) = and a (all parts) := rfl
    rw [split, and_false_iff, ih, List.exists_mem_cons_iff]

theorem any_false_iff (parts : List Truth) :
    any parts = some false ↔ ∀ a ∈ parts, a = some false := by
  induction parts with
  | nil => simp [any]
  | cons a parts ih =>
    have split : any (a :: parts) = or a (any parts) := rfl
    rw [split, List.forall_mem_cons, ← ih]
    rcases a with _ | _ | _ <;> rcases any parts with _ | _ | _ <;> simp [or]

end ThreeValued
