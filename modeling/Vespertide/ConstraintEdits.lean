import Vespertide.TableReplay

/-!
Replay of the constraint actions of one table. Every replacement takes one
occurrence of the constraint it names, so a run of replacements gets through when
there are enough of each; removals and additions always do.
-/
namespace Vespertide
open Components

def replacedNew : MigrationAction → Option TableConstraint
  | .replaceConstraint _ _ new => some new
  | _ => none

def news (actions : List MigrationAction) : List TableConstraint := actions.filterMap replacedNew

structure Cleared (table : String) (gone : List TableConstraint) (t t' : TableDef) : Prop where
  name : t'.name = t.name
  columns : t'.columns = t.columns.map (clearAll table gone)

theorem clear_names (table : String) (gone : List TableConstraint) (cols : List ColumnDef) :
    (cols.map (clearAll table gone)).map (·.name) = cols.map (·.name) := by
  rw [List.map_map]
  exact List.map_congr_left fun c _ => clear_all_name table gone c

theorem Cleared.nodup {table : String} {gone : List TableConstraint} {t t' : TableDef}
    (cleared : Cleared table gone t t') (nodup : t.columnNames.Nodup) : t'.columnNames.Nodup := by
  rw [TableDef.columnNames, cleared.columns, clear_names]
  exact nodup

theorem Cleared.refl (table : String) (t : TableDef) : Cleared table [] t t :=
  ⟨rfl, (List.map_id' t.columns).symm⟩

theorem Cleared.trans {table : String} {first second : List TableConstraint} {t t' t'' : TableDef}
    (one : Cleared table first t t') (two : Cleared table second t' t'') :
    Cleared table (first ++ second) t t'' := by
  refine ⟨two.name.trans one.name, ?_⟩
  rw [two.columns, one.columns, List.map_map]
  exact List.map_congr_left fun c _ => List.foldl_append.symm

/-! Replacements -/

theorem count_replace_first {old : TableConstraint} {constraints : List TableConstraint}
    (mem : old ∈ constraints) (new c : TableConstraint) :
    (replaceFirst old new constraints).count c + (if old = c then 1 else 0) =
      constraints.count c + (if new = c then 1 else 0) := by
  induction constraints with
  | nil => simp at mem
  | cons x rest ih =>
    by_cases here : x = old
    · subst here
      simp only [replaceFirst, ↓reduceIte, List.count_cons, beq_iff_eq]
      omega
    · have later := ih ((List.mem_cons.mp mem).resolve_left (Ne.symm here))
      simp only [replaceFirst, here, ↓reduceIte, List.count_cons]
      omega

/-- Replacements on `table`, of constraints of the baseline by constraints that are not. -/
def Replaces (table : String) (baseline : List TableConstraint) (actions : List MigrationAction) :
    Prop :=
  ∀ a ∈ actions, ∃ old new, a = .replaceConstraint table old new ∧ old ∈ baseline ∧ new ∉ baseline

section Replaces
variable {table : String} {baseline : List TableConstraint} {actions : List MigrationAction}

theorem mem_olds_baseline (replaces : Replaces table baseline actions) {c : TableConstraint}
    (mem : c ∈ olds actions) : c ∈ baseline := by
  obtain ⟨a, here, found⟩ := List.mem_filterMap.mp mem
  obtain ⟨old, new, rfl, from_baseline, _⟩ := replaces a here
  exact Option.some.inj found ▸ from_baseline

theorem mem_news_baseline (replaces : Replaces table baseline actions) {c : TableConstraint}
    (mem : c ∈ news actions) : c ∉ baseline := by
  obtain ⟨a, here, found⟩ := List.mem_filterMap.mp mem
  obtain ⟨old, new, rfl, _, fresh⟩ := replaces a here
  exact Option.some.inj found ▸ fresh

theorem step_replace {old new : TableConstraint} {t : TableDef} (nodup : t.columnNames.Nodup)
    (mem : old ∈ t.constraints) :
    editStep (.replaceConstraint table old new) t = some { t with
      constraints := replaceFirst old new t.constraints
      columns := t.columns.map (clearColumn table old) } := by
  simp only [editStep, tableEdit, replaceConstraintIn, mem, ↓reduceIte,
    clear_inline_eq table old nodup]
  rfl

theorem step_replace_absent {old new : TableConstraint} {t : TableDef}
    (absent : old ∉ t.constraints) : editStep (.replaceConstraint table old new) t = none := by
  simp [editStep, tableEdit, replaceConstraintIn, absent, Outcome.toOption, Outcome.fail]

theorem run_replaces_counts (replaces : Replaces table baseline actions) {t t' : TableDef}
    (nodup : t.columnNames.Nodup) (ran : run editStep actions t = some t') :
    Cleared table (olds actions) t t' ∧
      ∀ c, t'.constraints.count c + (olds actions).count c =
        t.constraints.count c + (news actions).count c := by
  induction actions generalizing t with
  | nil =>
    obtain rfl : t = t' := Option.some.inj ran
    exact ⟨.refl table t, by simp [olds, news]⟩
  | cons a actions ih =>
    obtain ⟨old, new, rfl, _, _⟩ := replaces a List.mem_cons_self
    have tail : Replaces table baseline actions := fun b mem =>
      replaces b (List.mem_cons_of_mem _ mem)
    by_cases mem : old ∈ t.constraints
    · rw [run_cons, step_replace nodup mem, Option.bind_some] at ran
      have first : Cleared table [old] t { t with
          constraints := replaceFirst old new t.constraints
          columns := t.columns.map (clearColumn table old) } := ⟨rfl, rfl⟩
      obtain ⟨cleared, counts⟩ := ih tail (first.nodup nodup) ran
      refine ⟨first.trans cleared, fun c => ?_⟩
      have here := counts c
      have step := count_replace_first mem new c
      simp only [olds, news, replacedOld, replacedNew, List.filterMap_cons, List.count_cons,
        beq_iff_eq] at here ⊢
      omega
    · rw [run_cons, step_replace_absent mem] at ran
      simp at ran

theorem run_replaces_iff (replaces : Replaces table baseline actions) {t : TableDef}
    (nodup : t.columnNames.Nodup) :
    (∃ t', run editStep actions t = some t') ↔
      ∀ c, (olds actions).count c ≤ t.constraints.count c := by
  constructor
  · rintro ⟨t', ran⟩ c
    have counts := (run_replaces_counts replaces nodup ran).2 c
    by_cases old : c ∈ baseline
    · have none_new : (news actions).count c = 0 :=
        List.count_eq_zero.mpr fun mem => mem_news_baseline replaces mem old
      omega
    · have none_old : (olds actions).count c = 0 :=
        List.count_eq_zero.mpr fun mem => old (mem_olds_baseline replaces mem)
      omega
  · intro enough
    induction actions generalizing t with
    | nil => exact ⟨t, rfl⟩
    | cons a actions ih =>
      obtain ⟨old, new, rfl, from_baseline, fresh⟩ := replaces a List.mem_cons_self
      have tail : Replaces table baseline actions := fun b mem =>
        replaces b (List.mem_cons_of_mem _ mem)
      have mem : old ∈ t.constraints := by
        have here := enough old
        simp only [olds, replacedOld, List.filterMap_cons, List.count_cons_self] at here
        exact List.count_pos_iff.mp (by omega)
      have first : Cleared table [old] t { t with
          constraints := replaceFirst old new t.constraints
          columns := t.columns.map (clearColumn table old) } := ⟨rfl, rfl⟩
      rw [run_cons, step_replace nodup mem, Option.bind_some]
      refine ih tail (first.nodup nodup) fun c => ?_
      have here := enough c
      have step := count_replace_first mem new c
      simp only [olds, replacedOld, List.filterMap_cons, List.count_cons, beq_iff_eq] at here ⊢
      omega

end Replaces

/-! Removals and additions -/

theorem run_removes {table : String} {gone : List TableConstraint} {t : TableDef}
    (nodup : t.columnNames.Nodup) :
    run editStep (gone.map (.removeConstraint table ·)) t = some { t with
      constraints := t.constraints.filter (· ∉ gone)
      columns := t.columns.map (clearAll table gone) } := by
  induction gone generalizing t with
  | nil =>
    have unchanged : clearAll table [] = id := rfl
    simp [unchanged]
  | cons c gone ih =>
    have step : editStep (.removeConstraint table c) t = some { t with
        constraints := t.constraints.filter (· ≠ c)
        columns := t.columns.map (clearColumn table c) } := by
      simp only [editStep, tableEdit, removeConstraintFrom, clear_inline_eq table c nodup]
      rfl
    have first : Cleared table [c] t { t with
        constraints := t.constraints.filter (· ≠ c)
        columns := t.columns.map (clearColumn table c) } := ⟨rfl, rfl⟩
    rw [List.map_cons, run_cons, step, Option.bind_some, ih (first.nodup nodup)]
    simp only [List.filter_filter, List.map_map, Option.some.injEq, TableDef.mk.injEq, true_and]
    refine ⟨rfl, List.filter_congr fun d _ => ?_⟩
    simp [Bool.and_comm]

theorem run_adds {table : String} (added : List TableConstraint) (t : TableDef) :
    ∃ t', run editStep (added.map (.addConstraint table ·)) t = some t' ∧ t'.name = t.name ∧
      t'.columns = t.columns ∧ ∀ c, c ∈ t'.constraints ↔ c ∈ t.constraints ∨ c ∈ added := by
  induction added generalizing t with
  | nil => exact ⟨t, rfl, rfl, rfl, by simp⟩
  | cons d added ih =>
    have step : ∃ t₁, editStep (.addConstraint table d) t = some t₁ ∧ t₁.name = t.name ∧
        t₁.columns = t.columns ∧ ∀ c, c ∈ t₁.constraints ↔ c ∈ t.constraints ∨ c = d := by
      by_cases mem : d ∈ t.constraints
      · refine ⟨t, by simp [editStep, tableEdit, addConstraintTo, mem, Outcome.toOption, Outcome.ok],
          rfl, rfl, fun c => ?_⟩
        constructor
        · exact .inl
        · rintro (here | rfl)
          · exact here
          · exact mem
      · refine ⟨{ t with constraints := t.constraints ++ [d] }, ?_, rfl, rfl, by simp⟩
        simp [editStep, tableEdit, addConstraintTo, mem, Outcome.toOption, Outcome.ok]
    obtain ⟨t₁, stepped, name, columns, constraints⟩ := step
    obtain ⟨t', ran, name', columns', constraints'⟩ := ih t₁
    refine ⟨t', ?_, name'.trans name, columns'.trans columns, fun c => ?_⟩
    · rw [List.map_cons, run_cons, stepped, Option.bind_some, ran]
    · rw [constraints', constraints, List.mem_cons, or_assoc]

end Vespertide
