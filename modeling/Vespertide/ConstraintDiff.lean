import Vespertide.Diff
import Mathlib.Data.List.Perm.Basic

/-!
The constraints that a difference replaces, removes and adds. Of the constraints
of one identity that disappear, as many are replaced as there are new ones of
that identity, in order; the others are removed.
-/
namespace Vespertide
variable (fromConstraints toConstraints : List TableConstraint)

def lostAs (key : ConstraintIdentityKey) : List TableConstraint :=
  fromConstraints.filter fun c => c ∉ toConstraints ∧ constraintIdentityKey c = key

def gainedAs (key : ConstraintIdentityKey) : List TableConstraint :=
  toConstraints.filter fun c => c ∉ fromConstraints ∧ constraintIdentityKey c = key

/-- The constraints of an identity that are replaced. -/
def replacedAs (key : ConstraintIdentityKey) : List TableConstraint :=
  (lostAs fromConstraints toConstraints key).take (gainedAs fromConstraints toConstraints key).length

def replacedOld : MigrationAction → Option TableConstraint
  | .replaceConstraint _ old _ => some old
  | _ => none

def olds (actions : List MigrationAction) : List TableConstraint := actions.filterMap replacedOld

variable {fromConstraints toConstraints}

theorem filter_map_if {α β : Type} (p : α → Prop) [DecidablePred p] (f : α → β) (xs : List α) :
    (xs.filterMap fun x => if p x then some (f x) else none) = (xs.filter (p ·)).map f := by
  induction xs with
  | nil => rfl
  | cons x xs ih => by_cases here : p x <;> simp [here, ih]

/-! Candidates -/

def freeCandidates (fromConstraints toConstraints : List TableConstraint)
    (key : ConstraintIdentityKey) (used : List Nat) : List (Nat × TableConstraint) :=
  (replacementCandidates fromConstraints toConstraints key).filter fun (ti, _) => ti ∉ used

theorem mem_candidates {key : ConstraintIdentityKey} {ti : Nat} {c : TableConstraint} :
    (ti, c) ∈ replacementCandidates fromConstraints toConstraints key ↔
      toConstraints[ti]? = some c ∧ c ∉ fromConstraints ∧ constraintIdentityKey c = key := by
  simp only [replacementCandidates, List.mem_filterMap, Prod.exists, List.mem_zipIdx_iff_getElem?]
  constructor
  · rintro ⟨c', ti', here, found⟩
    split at found
    · rename_i holds
      obtain ⟨rfl, rfl⟩ := Prod.mk.inj (Option.some.inj found)
      exact ⟨here, holds⟩
    · simp at found
  · rintro ⟨here, holds⟩
    exact ⟨c, ti, here, by simp [holds]⟩

theorem candidates_nodup (key : ConstraintIdentityKey) :
    ((replacementCandidates fromConstraints toConstraints key).map Prod.fst).Nodup := by
  simp only [replacementCandidates]
  rw [filter_map_if (fun x : TableConstraint × Nat =>
    x.1 ∉ fromConstraints ∧ constraintIdentityKey x.1 = key) fun x => (x.2, x.1), List.map_map]
  have indices : (toConstraints.zipIdx.map Prod.snd).Nodup := by
    rw [List.zipIdx_map_snd]
    exact List.nodup_range'
  exact (List.filter_sublist.map Prod.snd).nodup indices

theorem free_candidates_start (key : ConstraintIdentityKey) :
    (freeCandidates fromConstraints toConstraints key []).length =
      (gainedAs fromConstraints toConstraints key).length := by
  have all : freeCandidates fromConstraints toConstraints key [] =
      replacementCandidates fromConstraints toConstraints key := by
    simp [freeCandidates]
  rw [all, replacementCandidates, filter_map_if (fun x : TableConstraint × Nat =>
    x.1 ∉ fromConstraints ∧ constraintIdentityKey x.1 = key) fun x => (x.2, x.1), List.length_map]
  have first : toConstraints = toConstraints.zipIdx.map Prod.fst := (List.zipIdx_map_fst _ _).symm
  conv_rhs => rw [gainedAs, first, List.filter_map, List.length_map]
  rfl

theorem free_candidates_take {key : ConstraintIdentityKey} {used : List Nat} {ti : Nat}
    {c : TableConstraint} {rest : List (Nat × TableConstraint)}
    (free : freeCandidates fromConstraints toConstraints key used = (ti, c) :: rest)
    (key' : ConstraintIdentityKey) :
    freeCandidates fromConstraints toConstraints key' (used ++ [ti]) =
      if key' = key then rest else freeCandidates fromConstraints toConstraints key' used := by
  have again : freeCandidates fromConstraints toConstraints key' (used ++ [ti]) =
      (freeCandidates fromConstraints toConstraints key' used).filter fun (t, _) => t ≠ ti := by
    simp only [freeCandidates, List.filter_filter, List.mem_append, List.mem_singleton, not_or]
    exact List.filter_congr fun x _ => by grind
  have mem : (ti, c) ∈ replacementCandidates fromConstraints toConstraints key := by
    refine List.mem_of_mem_filter (?_ : (ti, c) ∈ freeCandidates _ _ _ used)
    rw [free]
    exact List.mem_cons_self
  rw [again]
  split
  · rename_i same
    subst same
    have nodup : ((freeCandidates fromConstraints toConstraints key' used).map Prod.fst).Nodup :=
      (List.filter_sublist.map Prod.fst).nodup (candidates_nodup key')
    rw [free] at nodup ⊢
    obtain ⟨fresh, _⟩ := List.nodup_cons.mp nodup
    have others : rest.filter (fun (t, _) => t ≠ ti) = rest := by
      rw [List.filter_eq_self]
      rintro ⟨t, d⟩ later
      have other : t ≠ ti := fun same => fresh (List.mem_map.mpr ⟨(t, d), later, same⟩)
      simpa using other
    simpa using others
  · rename_i other
    rw [List.filter_eq_self]
    rintro ⟨t, d⟩ later
    have apart : t ≠ ti := by
      rintro rfl
      have here := mem_candidates.mp mem
      have there := mem_candidates.mp (List.mem_of_mem_filter later)
      obtain rfl : d = c := Option.some.inj (there.1.symm.trans here.1)
      exact other (there.2.2.symm.trans here.2.2)
    simpa using apart

/-! The pairing -/

section Pairing
variable (tableName : String)

theorem replaced_from_cons (c : TableConstraint) (fi : Nat) (rest : List (TableConstraint × Nat))
    (r : Replacements) :
    diffReplacedFrom tableName fromConstraints toConstraints ((c, fi) :: rest) r =
      if c ∈ toConstraints then
        diffReplacedFrom tableName fromConstraints toConstraints rest r
      else
        match freeCandidates fromConstraints toConstraints (constraintIdentityKey c)
            r.replacedTo with
        | [] => diffReplacedFrom tableName fromConstraints toConstraints rest r
        | (ti, d) :: _ =>
            diffReplacedFrom tableName fromConstraints toConstraints rest
              ⟨r.replacedFrom ++ [fi], r.replacedTo ++ [ti],
                r.actions ++ [.replaceConstraint tableName c d]⟩ := by
  simp only [diffReplacedFrom, freeCandidates]
  split
  · rfl
  · rw [← List.head?_filter]
    generalize (replacementCandidates fromConstraints toConstraints
      (constraintIdentityKey c)).filter (fun (ti, _) => decide (ti ∉ r.replacedTo)) = free
    cases free <;> rfl

theorem olds_append (first second : List MigrationAction) :
    olds (first ++ second) = olds first ++ olds second := List.filterMap_append

/-- The replaced constraints of an identity: the first ones, as many as are free. -/
theorem replaced_from_olds (key : ConstraintIdentityKey) (rest : List (TableConstraint × Nat))
    (r : Replacements) :
    (olds (diffReplacedFrom tableName fromConstraints toConstraints rest r).actions).filter
        (constraintIdentityKey · = key) =
      (olds r.actions).filter (constraintIdentityKey · = key) ++
        (((rest.map Prod.fst).filter fun c => c ∉ toConstraints ∧ constraintIdentityKey c = key).take
          (freeCandidates fromConstraints toConstraints key r.replacedTo).length) := by
  induction rest generalizing r with
  | nil => simp [diffReplacedFrom]
  | cons head rest ih =>
    obtain ⟨c, fi⟩ := head
    rw [replaced_from_cons]
    split
    · rename_i kept
      simp [ih, kept]
    · rename_i lost
      cases free : freeCandidates fromConstraints toConstraints (constraintIdentityKey c)
          r.replacedTo with
      | nil =>
        simp only [ih]
        by_cases same : constraintIdentityKey c = key
        · subst same
          simp [free]
        · simp [same]
      | cons candidate others =>
        obtain ⟨ti, d⟩ := candidate
        simp only [ih, free_candidates_take free key, olds_append, List.filter_append,
          List.append_assoc]
        congr 1
        by_cases same : constraintIdentityKey c = key
        · subst same
          simp [olds, replacedOld, lost, free]
        · simp [olds, replacedOld, lost, same, Ne.symm same]

theorem olds_with_key (key : ConstraintIdentityKey) :
    (olds (diffReplacedConstraints tableName fromConstraints toConstraints).actions).filter
        (constraintIdentityKey · = key) = replacedAs fromConstraints toConstraints key := by
  rw [diffReplacedConstraints, replaced_from_olds, free_candidates_start, List.zipIdx_map_fst]
  rfl

theorem count_olds (c : TableConstraint) :
    (olds (diffReplacedConstraints tableName fromConstraints toConstraints).actions).count c =
      (replacedAs fromConstraints toConstraints (constraintIdentityKey c)).count c := by
  rw [← olds_with_key tableName, List.count_filter (by simp)]

theorem mem_olds {c : TableConstraint} :
    c ∈ olds (diffReplacedConstraints tableName fromConstraints toConstraints).actions ↔
      c ∈ replacedAs fromConstraints toConstraints (constraintIdentityKey c) := by
  rw [← List.count_pos_iff, count_olds, List.count_pos_iff]

theorem replaced_as_lost {key : ConstraintIdentityKey} {c : TableConstraint}
    (mem : c ∈ replacedAs fromConstraints toConstraints key) :
    c ∈ fromConstraints ∧ c ∉ toConstraints := by
  have here := List.mem_of_mem_filter (List.mem_of_mem_take mem)
  have lost := List.of_mem_filter (List.mem_of_mem_take mem)
  simp only [decide_eq_true_eq] at lost
  exact ⟨here, lost.1⟩

/-- What holds of every step of the pairing. -/
structure Paired (fromConstraints toConstraints : List TableConstraint) (tableName : String)
    (r : Replacements) : Prop where
  replaces : ∀ a ∈ r.actions, ∃ old new, a = .replaceConstraint tableName old new ∧
    old ∈ fromConstraints ∧ old ∉ toConstraints ∧ new ∈ toConstraints ∧ new ∉ fromConstraints ∧
    constraintIdentityKey new = constraintIdentityKey old
  used : ∀ ti ∈ r.replacedTo, ∃ old new, .replaceConstraint tableName old new ∈ r.actions ∧
    toConstraints[ti]? = some new

theorem replaced_from_paired {rest : List (TableConstraint × Nat)}
    (own : ∀ x ∈ rest, x.1 ∈ fromConstraints) {r : Replacements}
    (paired : Paired fromConstraints toConstraints tableName r) :
    Paired fromConstraints toConstraints tableName
      (diffReplacedFrom tableName fromConstraints toConstraints rest r) := by
  induction rest generalizing r with
  | nil => exact paired
  | cons head rest ih =>
    obtain ⟨c, fi⟩ := head
    have tail := fun x mem => own x (List.mem_cons_of_mem (c, fi) mem)
    rw [replaced_from_cons]
    split
    · exact ih tail paired
    · rename_i lost
      cases free : freeCandidates fromConstraints toConstraints (constraintIdentityKey c)
          r.replacedTo with
      | nil => exact ih tail paired
      | cons candidate others =>
        obtain ⟨ti, d⟩ := candidate
        have candidate_mem : (ti, d) ∈
            replacementCandidates fromConstraints toConstraints (constraintIdentityKey c) := by
          refine List.mem_of_mem_filter (?_ : (ti, d) ∈ freeCandidates _ _ _ r.replacedTo)
          rw [free]
          exact List.mem_cons_self
        obtain ⟨there, gained, same⟩ := mem_candidates.mp candidate_mem
        refine ih tail ⟨?_, ?_⟩
        · intro a mem
          rcases List.mem_append.mp mem with old | new
          · exact paired.replaces a old
          · obtain rfl := List.mem_singleton.mp new
            exact ⟨c, d, rfl, own (c, fi) List.mem_cons_self, lost,
              List.mem_of_getElem? there, gained, same⟩
        · intro t mem
          rcases List.mem_append.mp mem with old | new
          · obtain ⟨old, new, mem, here⟩ := paired.used t old
            exact ⟨old, new, List.mem_append_left _ mem, here⟩
          · obtain rfl := List.mem_singleton.mp new
            exact ⟨c, d, by simp, there⟩

theorem replaced_constraints_paired : Paired fromConstraints toConstraints tableName
    (diffReplacedConstraints tableName fromConstraints toConstraints) := by
  refine replaced_from_paired tableName ?_ ⟨by simp, by simp⟩
  intro x mem
  exact (List.zipIdx_map_fst 0 fromConstraints) ▸ List.mem_map_of_mem mem

/-! What is not replaced -/

/-- The lost constraints at the positions that no replacement took. -/
def unreplaced (toConstraints : List TableConstraint) (replacedFrom : List Nat)
    (rest : List (TableConstraint × Nat)) : List TableConstraint :=
  rest.filterMap fun (c, fi) => if c ∈ toConstraints ∨ fi ∈ replacedFrom then none else some c

theorem replaced_from_indices {rest : List (TableConstraint × Nat)} {r : Replacements} {i : Nat}
    (mem : i ∈ (diffReplacedFrom tableName fromConstraints toConstraints rest r).replacedFrom) :
    i ∈ r.replacedFrom ∨ i ∈ rest.map Prod.snd := by
  induction rest generalizing r with
  | nil => exact .inl mem
  | cons head rest ih =>
    obtain ⟨c, fi⟩ := head
    rw [replaced_from_cons] at mem
    split at mem
    · exact (ih mem).imp_right (List.mem_cons_of_mem fi)
    · split at mem
      · exact (ih mem).imp_right (List.mem_cons_of_mem fi)
      · rcases ih mem with here | later
        · rcases List.mem_append.mp here with old | new
          · exact .inl old
          · exact .inr (by simp [List.mem_singleton.mp new])
        · exact .inr (List.mem_cons_of_mem fi later)

theorem replaced_from_keeps {rest : List (TableConstraint × Nat)} {r : Replacements} {i : Nat}
    (mem : i ∈ r.replacedFrom) :
    i ∈ (diffReplacedFrom tableName fromConstraints toConstraints rest r).replacedFrom := by
  induction rest generalizing r with
  | nil => exact mem
  | cons head rest ih =>
    obtain ⟨c, fi⟩ := head
    rw [replaced_from_cons]
    split
    · exact ih mem
    · split
      · exact ih mem
      · exact ih (List.mem_append_left _ mem)

theorem replaced_from_perm {rest : List (TableConstraint × Nat)}
    (nodup : (rest.map Prod.snd).Nodup) {r : Replacements}
    (fresh : ∀ i ∈ rest.map Prod.snd, i ∉ r.replacedFrom) :
    ((olds (diffReplacedFrom tableName fromConstraints toConstraints rest r).actions) ++
      unreplaced toConstraints
        (diffReplacedFrom tableName fromConstraints toConstraints rest r).replacedFrom rest).Perm
      (olds r.actions ++ (rest.map Prod.fst).filter (· ∉ toConstraints)) := by
  induction rest generalizing r with
  | nil => simp [diffReplacedFrom, unreplaced]
  | cons head rest ih =>
    obtain ⟨c, fi⟩ := head
    obtain ⟨alone, rest_nodup⟩ := List.nodup_cons.mp nodup
    have rest_fresh := fun i mem => fresh i (List.mem_cons_of_mem fi mem)
    have own := fresh fi List.mem_cons_self
    rw [replaced_from_cons]
    split
    · rename_i kept
      simpa [unreplaced, kept] using ih rest_nodup rest_fresh
    · rename_i lost
      have passed : ∀ r', r'.replacedFrom = r.replacedFrom →
          fi ∉ (diffReplacedFrom tableName fromConstraints toConstraints rest r').replacedFrom := by
        intro r' same mem
        rcases replaced_from_indices tableName mem with old | later
        · exact own (same ▸ old)
        · exact alone later
      split
      · have here := ih (r := r) rest_nodup rest_fresh
        simp only [unreplaced, List.filterMap_cons, lost, passed r rfl, or_self, ↓reduceIte,
          List.map_cons, List.filter_cons, not_false_eq_true, decide_true]
        exact List.perm_middle.trans ((List.Perm.cons c here).trans List.perm_middle.symm)
      · rename_i ti d others free
        have taken : fi ∈ (diffReplacedFrom tableName fromConstraints toConstraints rest
            ⟨r.replacedFrom ++ [fi], r.replacedTo ++ [ti],
              r.actions ++ [.replaceConstraint tableName c d]⟩).replacedFrom :=
          replaced_from_keeps tableName (by simp)
        have here := ih (r := ⟨r.replacedFrom ++ [fi], r.replacedTo ++ [ti],
            r.actions ++ [.replaceConstraint tableName c d]⟩) rest_nodup (by
          intro i mem old
          rcases List.mem_append.mp old with old | new
          · exact rest_fresh i mem old
          · exact alone (List.mem_singleton.mp new ▸ mem))
        simp only [unreplaced, List.filterMap_cons, lost, taken, or_true, ↓reduceIte,
          List.map_cons, List.filter_cons, not_false_eq_true, decide_true]
        refine here.trans ?_
        simp [olds, replacedOld]

def replacedOlds (fromConstraints toConstraints : List TableConstraint) : List TableConstraint :=
  olds (diffReplacedConstraints tableName fromConstraints toConstraints).actions

def unreplacedOf (fromConstraints toConstraints : List TableConstraint) : List TableConstraint :=
  unreplaced toConstraints
    (diffReplacedConstraints tableName fromConstraints toConstraints).replacedFrom
    fromConstraints.zipIdx

theorem replaced_unreplaced_perm (fromConstraints toConstraints : List TableConstraint) :
    (replacedOlds tableName fromConstraints toConstraints ++
      unreplacedOf tableName fromConstraints toConstraints).Perm
      (fromConstraints.filter (· ∉ toConstraints)) := by
  have nodup : (fromConstraints.zipIdx.map Prod.snd).Nodup := by
    rw [List.zipIdx_map_snd]
    exact List.nodup_range'
  have perm : (olds (diffReplacedConstraints tableName fromConstraints toConstraints).actions
      ++ unreplaced toConstraints
        (diffReplacedConstraints tableName fromConstraints toConstraints).replacedFrom
        fromConstraints.zipIdx).Perm
      (olds [] ++ (fromConstraints.zipIdx.map Prod.fst).filter (· ∉ toConstraints)) :=
    replaced_from_perm tableName nodup (by simp)
  rw [List.zipIdx_map_fst] at perm
  exact perm

theorem mem_unreplaced_iff {c : TableConstraint} :
    c ∈ unreplacedOf tableName fromConstraints toConstraints ↔ c ∉ toConstraints ∧
      (replacedAs fromConstraints toConstraints (constraintIdentityKey c)).count c <
        fromConstraints.count c := by
  have counts := (replaced_unreplaced_perm tableName fromConstraints toConstraints).count_eq c
  rw [List.count_append, replacedOlds, count_olds] at counts
  rw [← List.count_pos_iff]
  by_cases lost : c ∈ toConstraints
  · have gone : (fromConstraints.filter (· ∉ toConstraints)).count c = 0 := by
      rw [List.count_eq_zero]
      intro mem
      have here := List.of_mem_filter mem
      simp [lost] at here
    simp only [lost, not_true_eq_false, false_and, iff_false]
    omega
  · rw [List.count_filter (by simpa using lost)] at counts
    simp only [lost, not_false_eq_true, true_and]
    omega

def columnsGone (deletedColumns : List String) (c : TableConstraint) : Bool :=
  c.columns ≠ [] ∧ ∀ col ∈ c.columns, col ∈ deletedColumns

def removedOf (fromConstraints toConstraints : List TableConstraint) (deletedColumns : List String) :
    List TableConstraint :=
  (unreplacedOf tableName fromConstraints toConstraints).filter (!columnsGone deletedColumns ·)

theorem diff_removed_eq (deletedColumns : List String) :
    diffRemovedConstraints tableName fromConstraints toConstraints deletedColumns
        (diffReplacedConstraints tableName fromConstraints toConstraints).replacedFrom =
      (removedOf tableName fromConstraints toConstraints deletedColumns).map
        (.removeConstraint tableName ·) := by
  have named : ∀ c : TableConstraint,
      (¬ (c.columns ≠ [] ∧ ∀ col ∈ c.columns, col ∈ deletedColumns)) =
        (columnsGone deletedColumns c = false) := by
    intro c
    simp only [columnsGone, decide_eq_false_iff_not]
  simp only [diffRemovedConstraints, removedOf, unreplacedOf, unreplaced, named]
  generalize (diffReplacedConstraints tableName fromConstraints toConstraints).replacedFrom =
    replacedFrom
  generalize fromConstraints.zipIdx = rest
  induction rest with
  | nil => rfl
  | cons head rest ih =>
    obtain ⟨c, fi⟩ := head
    by_cases spared : c ∈ toConstraints ∨ fi ∈ replacedFrom
    · simp only [List.filterMap_cons, spared, ↓reduceIte, ih]
    · cases gone : columnsGone deletedColumns c with
      | true => simp only [List.filterMap_cons, spared, ↓reduceIte, gone, reduceCtorEq, ih,
          List.filter_cons, Bool.not_true]
      | false => simp only [List.filterMap_cons, spared, ↓reduceIte, gone, ih, List.filter_cons,
          Bool.not_false, List.map_cons]

def addedOf (fromConstraints toConstraints : List TableConstraint) : List TableConstraint :=
  toConstraints.zipIdx.filterMap fun (c, ti) =>
    if c ∈ fromConstraints ∨
        ti ∈ (diffReplacedConstraints tableName fromConstraints toConstraints).replacedTo then none
    else some c

theorem diff_added_eq :
    diffAddedConstraints tableName fromConstraints toConstraints
        (diffReplacedConstraints tableName fromConstraints toConstraints).replacedTo =
      (addedOf tableName fromConstraints toConstraints).map (.addConstraint tableName ·) := by
  simp only [diffAddedConstraints, addedOf, List.map_filterMap]
  refine List.filterMap_congr fun x _ => ?_
  split <;> rfl

theorem added_gained {c : TableConstraint}
    (mem : c ∈ addedOf tableName fromConstraints toConstraints) :
    c ∈ toConstraints ∧ c ∉ fromConstraints := by
  obtain ⟨⟨d, ti⟩, here, found⟩ := List.mem_filterMap.mp mem
  simp only at found
  split at found
  · simp at found
  · rename_i free
    obtain rfl := Option.some.inj found
    exact ⟨List.mem_of_getElem? (List.mem_zipIdx_iff_getElem?.mp here), fun old => free (.inl old)⟩

/-- A constraint that appears is added, or it replaces another one. -/
theorem gained_replaces_or_added {c : TableConstraint} (mem : c ∈ toConstraints)
    (gained : c ∉ fromConstraints) :
    (∃ old, .replaceConstraint tableName old c ∈
      (diffReplacedConstraints tableName fromConstraints toConstraints).actions) ∨
      c ∈ addedOf tableName fromConstraints toConstraints := by
  obtain ⟨ti, here⟩ := List.getElem?_of_mem mem
  by_cases used : ti ∈ (diffReplacedConstraints tableName fromConstraints toConstraints).replacedTo
  · obtain ⟨old, new, action, there⟩ := (replaced_constraints_paired tableName).used ti used
    obtain rfl : new = c := Option.some.inj (there.symm.trans here)
    exact .inl ⟨old, action⟩
  · refine .inr (List.mem_filterMap.mpr ⟨(c, ti), List.mem_zipIdx_iff_getElem?.mpr here, ?_⟩)
    simp [gained, used]

end Pairing

end Vespertide
