import Mathlib.Data.List.Basic

/-!
Collecting results that may each fail. Taken from left to right the first
failure is the outcome; side by side any of them may be.
-/
namespace Results
variable {ε α : Type}

theorem bind_ok {β : Type} {r : Except ε α} {f : α → Except ε β} {b : β}
    (ok : r.bind f = .ok b) : ∃ a, r = .ok a ∧ f a = .ok b := by
  cases r with
  | error e => cases ok
  | ok a => exact ⟨a, rfl, ok⟩

theorem map_ok {β : Type} {r : Except ε α} {f : α → β} {b : β}
    (ok : r.map f = .ok b) : ∃ a, r = .ok a ∧ b = f a := by
  cases r with
  | error e => cases ok
  | ok a => exact ⟨a, rfl, (Except.ok.inj ok).symm⟩

def collectFirst : List (Except ε α) → Except ε (List α)
  | [] => .ok []
  | r :: rest => r.bind fun a => (collectFirst rest).map (a :: ·)

theorem collect_first_ok {results : List (Except ε α)} (sound : ∀ e, .error e ∉ results) :
    ∃ values, results = values.map .ok ∧ collectFirst results = .ok values := by
  induction results with
  | nil => exact ⟨[], rfl, rfl⟩
  | cons r rest ih =>
    obtain ⟨values, rfl, collected⟩ := ih fun e mem => sound e (List.mem_cons_of_mem r mem)
    cases r with
    | error e => exact absurd List.mem_cons_self (sound e)
    | ok a =>
      refine ⟨a :: values, rfl, ?_⟩
      rw [collectFirst, collected]
      rfl

theorem collect_first_error {results : List (Except ε α)} (failing : ∃ e, .error e ∈ results) :
    ∃ e, .error e ∈ results ∧ collectFirst results = .error e := by
  induction results with
  | nil =>
    obtain ⟨e, mem⟩ := failing
    cases mem
  | cons r rest ih =>
    cases r with
    | error e => exact ⟨e, List.mem_cons_self, rfl⟩
    | ok a =>
      obtain ⟨e, mem⟩ := failing
      have later : .error e ∈ rest := by simpa using mem
      obtain ⟨e', there, collected⟩ := ih ⟨e, later⟩
      refine ⟨e', List.mem_cons_of_mem _ there, ?_⟩
      rw [collectFirst, collected]
      rfl

def failureOf : Except ε α → Option ε
  | .error e => some e
  | .ok _ => none

theorem collect_first_fails {results : List (Except ε α)} {e : ε} :
    collectFirst results = .error e ↔ results.findSome? failureOf = some e := by
  induction results with
  | nil => simp [collectFirst]
  | cons r rest ih =>
    cases r with
    | error e' => exact ⟨fun same => congrArg some (Except.error.inj same),
        fun same => congrArg Except.error (Option.some.inj same)⟩
    | ok a =>
      rw [List.findSome?_cons, failureOf, ← ih, collectFirst]
      cases collected : collectFirst rest <;> simp [Except.bind, Except.map]

theorem collect_first_values (values : List α) :
    collectFirst (values.map (.ok : α → Except ε α)) = .ok values := by
  induction values with
  | nil => rfl
  | cons a rest ih =>
    rw [List.map_cons, collectFirst, ih]
    rfl

section Pool
variable {β : Type}

/-- The part that one job of a pool works through, by the halvings that lead to it; `true` is
    the later half. A part is halved only where `minLen` fit into a half. -/
def job (minLen : Nat) : List Bool → List α → List α
  | [], xs => xs
  | later :: path, xs =>
      if minLen ≤ xs.length / 2 then
        job minLen path (if later then xs.drop (xs.length / 2) else xs.take (xs.length / 2))
      else xs

theorem job_map (f : α → β) (minLen : Nat) (path : List Bool) (xs : List α) :
    job minLen path (xs.map f) = (job minLen path xs).map f := by
  induction path generalizing xs with
  | nil => rfl
  | cons later path ih =>
    rw [job, job, List.length_map]
    split
    · rw [← ih]
      cases later <;> simp
    · rfl

theorem job_whole {minLen : Nat} {xs : List α} (short : xs.length < 2 * minLen)
    (path : List Bool) : job minLen path xs = xs := by
  cases path with
  | nil => rfl
  | cons later path =>
    have unsplit : ¬ minLen ≤ xs.length / 2 := by omega
    rw [job, if_neg unsplit]

/-- What a pool makes of the results: every value in order, or the first failure of one of its
    jobs. -/
structure SideBySide (collect : Nat → List (Except ε α) → Except ε (List α)) : Prop where
  values : ∀ minLen (values : List α), collect minLen (values.map .ok) = .ok values
  failures : ∀ minLen (results : List (Except ε α)), (∃ e, .error e ∈ results) →
    ∃ path e, collectFirst (job minLen path results) = .error e ∧
      collect minLen results = .error e

/-- A pool in which one job is done before every other. -/
def collectNoticing (path : List Bool) (minLen : Nat) (results : List (Except ε α)) :
    Except ε (List α) :=
  match collectFirst (job minLen path results) with
  | .error e => .error e
  | .ok _ => collectFirst results

theorem noticing_side_by_side (path : List Bool) :
    SideBySide (collectNoticing path : Nat → List (Except ε α) → _) where
  values minLen values := by
    rw [collectNoticing, job_map, collect_first_values]
    exact collect_first_values values
  failures minLen results failing := by
    cases noticed : collectFirst (job minLen path results) with
    | error e => exact ⟨path, e, noticed, by rw [collectNoticing, noticed]⟩
    | ok _ =>
      obtain ⟨e, -, failed⟩ := collect_first_error failing
      exact ⟨[], e, failed, by rw [collectNoticing, noticed]; exact failed⟩

/-- Every pool finds the first failure exactly where each job that fails finds it. -/
theorem side_by_side_first_iff (minLen : Nat) (results : List (Except ε α)) :
    (∀ collect, SideBySide collect → collect minLen results = collectFirst results) ↔
      ∀ path e, collectFirst (job minLen path results) = .error e →
        collectFirst results = .error e := by
  constructor
  · intro agree path e failed
    rw [← agree _ (noticing_side_by_side path), collectNoticing, failed]
  · intro alike collect promised
    by_cases failing : ∃ e, .error e ∈ results
    · obtain ⟨path, e, failed, found⟩ := promised.failures minLen results failing
      rw [found, alike path e failed]
    · obtain ⟨values, rfl, first⟩ := collect_first_ok (not_exists.mp failing)
      rw [first, promised.values]

end Pool

/-! Optional results -/

section Optional
variable {β : Type}

theorem map_m_congr {f g : α → Option β} {xs : List α} (same : ∀ x ∈ xs, f x = g x) :
    xs.mapM f = xs.mapM g := by
  induction xs with
  | nil => rfl
  | cons x xs ih =>
    obtain ⟨here, later⟩ := List.forall_mem_cons.mp same
    rw [List.mapM_cons, List.mapM_cons, here, ih later]

theorem map_m_some_iff {f : α → Option β} {xs : List α} : ∀ {ys : List β},
    xs.mapM f = some ys ↔ xs.map f = ys.map some := by
  induction xs with
  | nil =>
    intro ys
    cases ys <;> simp
  | cons x xs ih =>
    intro ys
    rw [List.mapM_cons, List.map_cons]
    cases here : f x with
    | none => cases ys <;> simp
    | some y =>
      cases later : xs.mapM f with
      | none =>
        cases ys with
        | nil => simp
        | cons z zs =>
          have apart : xs.map f ≠ zs.map some := fun same => by
            rw [← ih, later] at same
            cases same
          simp [apart]
      | some rest =>
        cases ys with
        | nil => simp
        | cons z zs =>
          have same : rest = zs ↔ xs.map f = zs.map some := by
            rw [← ih, later, Option.some_inj]
          simp [same]

theorem mem_map_m {f : α → Option β} {xs : List α} {ys : List β} (done : xs.mapM f = some ys)
    {y : β} : y ∈ ys ↔ ∃ x ∈ xs, f x = some y := by
  rw [← List.mem_map, map_m_some_iff.mp done]
  simp

theorem map_m_map {γ : Type} {f : α → Option β} {xs : List α} {ys : List β}
    (done : xs.mapM f = some ys) {g : β → γ} {h : α → γ}
    (same : ∀ x ∈ xs, ∀ y, f x = some y → g y = h x) : ys.map g = xs.map h := by
  have lists := map_m_some_iff.mp done
  have every : ∀ x ∈ xs, (f x).map g = some (h x) := by
    intro x mem
    have listed : f x ∈ ys.map some := lists ▸ List.mem_map_of_mem mem
    obtain ⟨y, -, made⟩ := List.mem_map.mp listed
    rw [← made, Option.map_some, same x mem y made.symm]
  refine List.map_injective_iff.mpr (fun _ _ => Option.some.inj) ?_
  calc (ys.map g).map some = (xs.map f).map (Option.map g) := by
        rw [lists, List.map_map, List.map_map]
        rfl
    _ = (xs.map h).map some := by
        rw [List.map_map, List.map_map]
        exact List.map_congr_left every

end Optional

end Results
