import Mathlib.Data.List.Basic

/-!
Readers that take a value from the front of a list of tokens, and the languages
they read.
-/
namespace Reading

variable {τ α β : Type}

/-- The words of tokens, each with a value it stands for. -/
abbrev Language (τ α : Type) := List τ → α → Prop

abbrev Reader (τ α : Type) := List τ → Option (α × List τ)

/-- What is taken is a word, and every word is taken where `follow` allows
    what stands after it. -/
structure Reads (read : Reader τ α) (language : Language τ α) (follow : List τ → Prop) :
    Prop where
  sound : ∀ {s a rest}, read s = some (a, rest) → ∃ used, s = used ++ rest ∧ language used a
  complete : ∀ {used a rest}, language used a → follow rest →
    read (used ++ rest) = some (a, rest)

/-- Words of `item`, each after a separator. -/
inductive Separated (sep : τ) (item : Language τ α) : List τ → List α → Prop where
  | nil : Separated sep item [] []
  | cons {s t : List τ} {a : α} {as : List α} (first : item s a)
      (others : Separated sep item t as) : Separated sep item (sep :: (s ++ t)) (a :: as)

section Rules
variable {read : Reader τ α} {language : Language τ α} {follow : List τ → Prop}

theorem Reads.entire_iff (reads : Reads read language follow) (atEnd : follow [])
    (s : List τ) (a : α) : read s = some (a, []) ↔ language s a := by
  constructor
  · intro taken
    obtain ⟨used, split, word⟩ := reads.sound taken
    rw [List.append_nil] at split
    rw [split]
    exact word
  · intro word
    have taken := reads.complete word atEnd
    rwa [List.append_nil] at taken

theorem Separated.length_le {sep : τ} {item : Language τ α} {s : List τ} {as : List α}
    (words : Separated sep item s as) : as.length ≤ s.length := by
  induction words with
  | nil => exact Nat.le_refl 0
  | cons first others ih =>
    simp only [List.length_cons, List.length_append]
    omega

theorem Separated.imp {sep : τ} {item other : Language τ α}
    (weaker : ∀ {s a}, item s a → other s a) {s : List τ} {as : List α}
    (words : Separated sep item s as) : Separated sep other s as := by
  induction words with
  | nil => exact .nil
  | cons first others ih => exact .cons (weaker first) ih

end Rules
end Reading
