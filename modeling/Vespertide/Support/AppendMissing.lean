import Mathlib.Data.List.Basic
import Mathlib.Data.List.Nodup

/-!
Completing a list with candidates: a candidate is appended unless an element
already there covers it. Which elements are appended depends only on the
membership of the list that is completed.
-/
namespace AppendMissing
variable {α : Type} (covers : α → α → Bool)

def Covered (xs : List α) (x : α) : Prop := ∃ e ∈ xs, covers e x

instance (xs : List α) (x : α) : Decidable (Covered covers xs x) :=
  inferInstanceAs (Decidable (∃ e ∈ xs, covers e x = true))

def appendMissing : List α → List α → List α
  | [], xs => xs
  | x :: cands, xs => appendMissing cands (if Covered covers xs x then xs else xs ++ [x])

def missing : List α → List α → List α
  | [], _ => []
  | x :: cands, xs =>
      if Covered covers xs x then missing cands xs else x :: missing cands (xs ++ [x])

variable {covers}

theorem append_missing_eq (cands xs : List α) :
    appendMissing covers cands xs = xs ++ missing covers cands xs := by
  induction cands generalizing xs with
  | nil => simp [appendMissing, missing]
  | cons x cands ih =>
    simp only [appendMissing, missing]
    split
    · exact ih xs
    · rw [ih, List.append_assoc]
      rfl

theorem append_missing_append (first second xs : List α) :
    appendMissing covers (first ++ second) xs =
      appendMissing covers second (appendMissing covers first xs) := by
  induction first generalizing xs with
  | nil => rfl
  | cons x first ih => simp only [List.cons_append, appendMissing, ih]

theorem append_missing_map {f : α → α} {cands : List α} (xs : List α)
    (covering : ∀ e x, covers (f e) x = covers e x) (kept : ∀ x ∈ cands, f x = x) :
    appendMissing covers cands (xs.map f) = (appendMissing covers cands xs).map f := by
  induction cands generalizing xs with
  | nil => rfl
  | cons x cands ih =>
    obtain ⟨own, others⟩ := List.forall_mem_cons.mp kept
    have same : Covered covers (xs.map f) x ↔ Covered covers xs x := by
      simp [Covered, covering]
    simp only [appendMissing, same]
    split
    · exact ih xs others
    · rw [← ih _ others, List.map_append, List.map_singleton, own]

theorem missing_subset {cands xs : List α} {x : α} (h : x ∈ missing covers cands xs) :
    x ∈ cands := by
  induction cands generalizing xs with
  | nil => simp [missing] at h
  | cons c cands ih =>
    simp only [missing] at h
    split at h
    · exact List.mem_cons_of_mem c (ih h)
    · rcases List.mem_cons.mp h with same | later
      · simp [same]
      · exact List.mem_cons_of_mem c (ih later)

theorem missing_uncovered {cands xs : List α} {x : α} (h : x ∈ missing covers cands xs) :
    ¬ Covered covers xs x := by
  induction cands generalizing xs with
  | nil => simp [missing] at h
  | cons c cands ih =>
    simp only [missing] at h
    split at h
    · exact ih h
    · rename_i fresh
      rcases List.mem_cons.mp h with same | later
      · rwa [same]
      · rintro ⟨e, he, cov⟩
        exact ih later ⟨e, List.mem_append_left _ he, cov⟩

theorem missing_congr {cands xs ys : List α} (same : ∀ e, e ∈ xs ↔ e ∈ ys) :
    missing covers cands xs = missing covers cands ys := by
  induction cands generalizing xs ys with
  | nil => rfl
  | cons c cands ih =>
    have cov : Covered covers xs c ↔ Covered covers ys c := by simp [Covered, same]
    have grown : ∀ e, e ∈ xs ++ [c] ↔ e ∈ ys ++ [c] := by simp [same]
    simp only [missing, cov, ih same, ih grown]

theorem append_missing_congr {cands xs ys : List α} (same : ∀ e, e ∈ xs ↔ e ∈ ys) (e : α) :
    e ∈ appendMissing covers cands xs ↔ e ∈ appendMissing covers cands ys := by
  simp only [append_missing_eq, List.mem_append, same, missing_congr same]

theorem mem_append_missing_left {cands xs : List α} {x : α} (h : x ∈ xs) :
    x ∈ appendMissing covers cands xs := by
  rw [append_missing_eq]
  exact List.mem_append_left _ h

theorem append_missing_fixed {cands xs : List α} (h : ∀ x ∈ cands, Covered covers xs x) :
    appendMissing covers cands xs = xs := by
  induction cands with
  | nil => rfl
  | cons c cands ih =>
    simp only [appendMissing, h c List.mem_cons_self, ↓reduceIte]
    exact ih fun x hx => h x (List.mem_cons_of_mem c hx)

section SelfCovering
variable {cands : List α} (self : ∀ x ∈ cands, covers x x = true)
include self

theorem append_missing_covers {xs : List α} :
    ∀ x ∈ cands, Covered covers (appendMissing covers cands xs) x := by
  induction cands generalizing xs with
  | nil => simp
  | cons c cands ih =>
    intro x hx
    rcases List.mem_cons.mp hx with same | later
    · subst x
      have here : Covered covers (if Covered covers xs c then xs else xs ++ [c]) c := by
        split
        · assumption
        · exact ⟨c, by simp, self c List.mem_cons_self⟩
      obtain ⟨e, he, cov⟩ := here
      exact ⟨e, by simpa only [appendMissing] using mem_append_missing_left he, cov⟩
    · exact ih (fun y hy => self y (List.mem_cons_of_mem c hy)) x later

theorem append_missing_idempotent (xs : List α) :
    appendMissing covers cands (appendMissing covers cands xs) = appendMissing covers cands xs :=
  append_missing_fixed (append_missing_covers self)

theorem missing_not_mem {xs : List α} {x : α} (h : x ∈ missing covers cands xs) : x ∉ xs := by
  intro mem
  exact missing_uncovered h ⟨x, mem, self x (missing_subset h)⟩

theorem missing_nodup (xs : List α) : (missing covers cands xs).Nodup := by
  induction cands generalizing xs with
  | nil => simp [missing]
  | cons c cands ih =>
    have tail := fun y hy => self y (List.mem_cons_of_mem c hy)
    simp only [missing]
    split
    · exact ih tail xs
    · rw [List.nodup_cons]
      refine ⟨?_, ih tail _⟩
      intro again
      exact missing_uncovered again ⟨c, by simp, self c List.mem_cons_self⟩

end SelfCovering

/-- A candidate whose coverers all stand for one another is appended when it is the first of
    them and none is there yet. -/
theorem mem_missing_iff {cands xs : List α} {x : α} (self : covers x x = true)
    (alike : ∀ e ∈ cands, covers e x = true → ∀ e', covers e' e = covers e' x) :
    x ∈ missing covers cands xs ↔
      ¬ Covered covers xs x ∧ cands.find? (covers · x) = some x := by
  induction cands generalizing xs with
  | nil => simp [missing]
  | cons c cands ih =>
    have tail := fun e mem => alike e (List.mem_cons_of_mem c mem)
    rw [missing, List.find?_cons]
    cases own : covers c x with
    | true =>
      have same : Covered covers xs c ↔ Covered covers xs x := by
        simp only [Covered, alike c List.mem_cons_self own]
      simp only [same, Option.some.injEq]
      split
      · rename_i covered
        refine iff_of_false ?_ (fun both => both.1 covered)
        intro mem
        exact missing_uncovered mem covered
      · rename_i fresh
        have later : x ∉ missing covers cands (xs ++ [c]) := by
          intro mem
          exact missing_uncovered mem ⟨c, by simp, own⟩
        simp [fresh, later, eq_comm]
    | false =>
      have other : x ≠ c := by
        rintro rfl
        simp [self] at own
      split
      · exact ih tail
      · have grown : Covered covers (xs ++ [c]) x ↔ Covered covers xs x := by
          simp [Covered, own, or_and_right, exists_or]
        rw [List.mem_cons, ih tail, grown]
        simp [other]

theorem mem_missing_of_sole {cands xs : List α} {x : α} (self : covers x x = true)
    (sole : x ∈ cands → ∀ e ∈ cands, covers e x = true → e = x) :
    x ∈ missing covers cands xs ↔ ¬ Covered covers xs x ∧ x ∈ cands := by
  by_cases mem : x ∈ cands
  · rw [mem_missing_iff self fun e here own e' => by rw [sole mem e here own]]
    refine and_congr_right fun _ => ⟨fun _ => mem, fun _ => ?_⟩
    cases found : cands.find? (covers · x) with
    | none => exact absurd self (by simpa using List.find?_eq_none.mp found x mem)
    | some e =>
      have own : covers e x = true := by simpa using List.find?_some found
      rw [sole mem e (List.mem_of_find?_eq_some found) own]
  · exact iff_of_false (fun added => mem (missing_subset added)) (fun both => mem both.2)

end AppendMissing
