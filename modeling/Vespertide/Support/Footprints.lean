import Mathlib

/-!
Changes of a memory that keep to some of its cells. Changes of disjoint cells
commute, so a run can be sorted by what its steps touch, and a pair of steps can be
exchanged for others without a look at the steps between them.
-/
namespace Footprints
variable {ι α β σ : Type}

/-- A change within some cells leaves the others and does not look at them. -/
structure Within (S : Set ι) (f : (ι → α) → ι → α) : Prop where
  still : ∀ m, ∀ i ∉ S, f m i = m i
  reads : ∀ m m', (∀ i ∈ S, m i = m' i) → ∀ i ∈ S, f m i = f m' i

theorem Within.id (S : Set ι) : Within S (fun m : ι → α => m) :=
  ⟨fun _ _ _ => rfl, fun _ _ same => same⟩

theorem Within.comp {S : Set ι} {f g : (ι → α) → ι → α} (outer : Within S f)
    (inner : Within S g) : Within S (fun m => f (g m)) where
  still m i off := (outer.still _ i off).trans (inner.still m i off)
  reads m m' same := outer.reads _ _ (inner.reads m m' same)

theorem Within.mono {S T : Set ι} {f : (ι → α) → ι → α} (within : Within S f) (sub : S ⊆ T) :
    Within T f where
  still m i off := within.still m i fun mem => off (sub mem)
  reads m m' same i mem := by
    by_cases here : i ∈ S
    · exact within.reads m m' (fun j inside => same j (sub inside)) i here
    · rw [within.still m i here, within.still m' i here]
      exact same i mem

theorem within_update [DecidableEq ι] {S : Set ι} {i : ι} (mem : i ∈ S) {h : (ι → α) → α}
    (looks : ∀ m m', (∀ j ∈ S, m j = m' j) → h m = h m') :
    Within S fun m => Function.update m i (h m) where
  still m j off := by
    have other : j ≠ i := fun same => off (same ▸ mem)
    exact Function.update_of_ne other ..
  reads m m' same j inside := by
    rw [Function.update_apply, Function.update_apply, looks m m' same, same j inside]

theorem Within.commute {S T : Set ι} {f g : (ι → α) → ι → α} (here : Within S f)
    (there : Within T g) (apart : Disjoint S T) (m : ι → α) : f (g m) = g (f m) := by
  have no_both : ∀ i ∈ S, i ∉ T := fun i mem => Set.disjoint_left.mp apart mem
  funext i
  by_cases own : i ∈ S
  · have seen : ∀ j ∈ S, g m j = m j := fun j mem => there.still m j (no_both j mem)
    rw [here.reads _ _ seen i own, there.still _ i (no_both i own)]
  · rw [here.still _ i own]
    by_cases other : i ∈ T
    · have seen : ∀ j ∈ T, m j = f m j := fun j mem =>
        (here.still m j fun both => no_both j both mem).symm
      exact there.reads _ _ seen i other
    · rw [there.still m i other, there.still _ i other, here.still m i own]

/-! Runs -/

variable {step : σ → β → σ}

/-- What commutes with every step of a run commutes with the run. -/
theorem fold_through {g : σ → σ} {bs : List β}
    (commutes : ∀ b ∈ bs, ∀ s, step (g s) b = g (step s b)) (s : σ) :
    bs.foldl step (g s) = g (bs.foldl step s) := by
  induction bs generalizing s with
  | nil => rfl
  | cons b rest ih =>
    obtain ⟨here, later⟩ := List.forall_mem_cons.mp commutes
    rw [List.foldl_cons, here, ih later, List.foldl_cons]

theorem fold_separate {p : β → Bool} {bs : List β}
    (commutes : ∀ a ∈ bs, p a = true → ∀ b ∈ bs, p b = false → ∀ s,
      step (step s a) b = step (step s b) a) (s : σ) :
    bs.foldl step s = (bs.filter (! p ·)).foldl step ((bs.filter p).foldl step s) := by
  induction bs generalizing s with
  | nil => rfl
  | cons b rest ih =>
    have later := ih fun a mem pa c mem' pc =>
      commutes a (List.mem_cons_of_mem b mem) pa c (List.mem_cons_of_mem b mem') pc
    cases kind : p b with
    | true => simp [kind, later]
    | false =>
      have moved : (rest.filter p).foldl step (step s b) = step ((rest.filter p).foldl step s) b := by
        refine fold_through (g := fun s => step s b) (fun a mem s => ?_) s
        obtain ⟨listed, pa⟩ := List.mem_filter.mp mem
        exact (commutes a (List.mem_cons_of_mem b listed) pa b List.mem_cons_self kind s).symm
      simp [kind, later, moved]

/-! A pair of entries, replaced -/

theorem filter_pair {p : β → Bool} {bs : List β} {x y : β} (pair : bs.filter p = [x, y]) :
    ∃ before between after, bs = before ++ x :: between ++ y :: after ∧
      ∀ b ∈ before ++ between ++ after, p b = false := by
  obtain ⟨before, rest, rfl, none_before, _, found⟩ := List.filter_eq_cons_iff.mp pair
  obtain ⟨between, after, rfl, none_between, _, last⟩ := List.filter_eq_cons_iff.mp found
  refine ⟨before, between, after, by simp, ?_⟩
  simp only [List.forall_mem_append, ← Bool.not_eq_true]
  exact ⟨⟨none_before, none_between⟩, List.filter_eq_nil_iff.mp last⟩

end Footprints
