import Mathlib
import Vespertide.Support.Literals

/-!
Literals with escapes. A syntax says for each character what it stands for and
how many of the characters after it belong to it; a literal is read up to the
first character that closes it. Replacing parts of a text is how it is written.
-/
namespace Text

/-! Replacing -/

/-- Parts are found from left to right and do not overlap; `skip` counts what is left of the
    part that was found last. -/
def replaceFrom (part new : List Char) : Nat → List Char → List Char
  | _, [] => []
  | skip + 1, _ :: s => replaceFrom part new skip s
  | 0, c :: s =>
      if part.isPrefixOf (c :: s) then new ++ replaceFrom part new (part.length - 1) s
      else c :: replaceFrom part new 0 s

/-- `str::replace` -/
def replace (part new s : List Char) : List Char := replaceFrom part new 0 s

theorem replace_one (c : Char) (new s : List Char) :
    replace [c] new s = s.flatMap fun d => if d = c then new else [d] := by
  induction s with
  | nil => rfl
  | cons d s ih =>
    rw [replace] at ih
    by_cases same : d = c
    · simp [replace, replaceFrom, same, ih]
    · simp [replace, replaceFrom, Ne.symm same, same, ih]

theorem replace_doubled (delim : Char) (s : List Char) :
    replace [delim, delim] [delim] (doubled delim s) = s := by
  induction s with
  | nil => rfl
  | cons c s ih =>
    simp only [replace, doubled] at ih
    by_cases same : c = delim
    · simp [replace, replaceFrom, doubled, same, ih]
    · simp [replace, replaceFrom, doubled, Ne.symm same, same, ih]

theorem replace_two (c d : Char) (new : List Char) (e : Char) (s : List Char) :
    replace [c, d] new (e :: s) =
      if e = c ∧ s.head? = some d then new ++ replace [c, d] new s.tail
      else e :: replace [c, d] new s := by
  have found : [c, d].isPrefixOf (e :: s) = true ↔ e = c ∧ s.head? = some d := by
    cases s with
    | nil => simp
    | cons f s =>
      simp only [List.isPrefixOf, Bool.and_true, Bool.and_eq_true, beq_iff_eq, List.head?_cons,
        Option.some_inj]
      exact and_congr eq_comm eq_comm
  simp only [replace, replaceFrom, found]
  split
  · rename_i here
    cases s with
    | nil => cases here.2
    | cons f s => rfl
  · rfl

/-! Reading -/

structure LiteralSyntax where
  closing : Char
  value : Char → List Char → Option (List Char × Nat)

namespace LiteralSyntax
variable (l : LiteralSyntax)

def read : Nat → List Char → Option (List Char × List Char)
  | _, [] => none
  | skip + 1, _ :: s => read skip s
  | 0, c :: s =>
      if c = l.closing then some ([], s)
      else (l.value c s).bind fun (value, more) =>
        (read more s).map fun (rest, after) => (value ++ rest, after)

variable {l}

theorem read_skip (s t : List Char) : l.read s.length (s ++ t) = l.read 0 t := by
  induction s with
  | nil => rfl
  | cons c s ih => exact ih

theorem read_value {c : Char} {more t value : List Char} (within : c ≠ l.closing)
    (here : l.value c (more ++ t) = some (value, more.length)) :
    l.read 0 (c :: (more ++ t)) =
      (l.read 0 t).map fun (rest, after) => (value ++ rest, after) := by
  rw [read, if_neg within, here, Option.bind_some]
  simp only [read_skip]

theorem read_plain {c : Char} {t : List Char} (within : c ≠ l.closing)
    (here : l.value c t = some ([c], 0)) :
    l.read 0 (c :: t) = (l.read 0 t).map fun (rest, after) => (c :: rest, after) :=
  @read_value l c [] t [c] within here

theorem read_refused {c : Char} {t : List Char} (within : c ≠ l.closing)
    (here : l.value c t = none) : l.read 0 (c :: t) = none := by
  rw [read, if_neg within, here, Option.bind_none]

/-- A measure that no value exceeds is not exceeded by a literal. -/
theorem read_cost {cost : Char → Nat}
    (bounded : ∀ c s value more, c ≠ l.closing → l.value c s = some (value, more) →
      (value.map cost).sum ≤ more + 1) :
    ∀ (skip : Nat) (s value after : List Char), l.read skip s = some (value, after) →
      (value.map cost).sum + after.length + skip + 1 ≤ s.length
  | _, [], _, _, found => by cases found
  | skip + 1, c :: s, value, after, found => by
    have later := read_cost bounded skip s value after found
    rw [List.length_cons]
    omega
  | 0, c :: s, value, after, found => by
    rw [read] at found
    split at found
    · cases found
      simp
    · rename_i within
      obtain ⟨⟨first, more⟩, here, found⟩ := Option.bind_eq_some_iff.mp found
      obtain ⟨⟨rest, tail⟩, later, same⟩ := Option.map_eq_some_iff.mp found
      obtain ⟨rfl, rfl⟩ := Prod.mk.inj same
      have first_cost := bounded c s first more within here
      have rest_cost := read_cost bounded more s rest tail later
      rw [List.map_append, List.sum_append, List.length_cons]
      omega

end LiteralSyntax

end Text
