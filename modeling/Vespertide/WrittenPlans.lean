import Mathlib
import Vespertide.FillPrompt
import Vespertide.RevisionFlow

/-!
What holds of every plan that the revision command writes, whatever it is answered.
The refusals come before the questions and survive them; what the questions are about
is settled when the plan is written.
-/
namespace Vespertide
open Dialogue TypeChanges

variable {σ : Type}

/-! What a question keeps -/

theorem confirmed_ends {α : Type} {x : Asking σ String (Option α)} {a : α}
    (ends : Ends (confirmed x) a) : Ends x (some a) := by
  obtain ⟨answer, asked, rest⟩ := bind_ends ends
  cases answer with
  | none => exact absurd rest break_off_ends
  | some choice =>
    rw [pure_ends rest]
    exact within_ends asked

theorem ask_each_keeps {W C : Type} {P : MigrationPlan → Prop}
    {promptFn : W → Asking σ String (Option C)} {put : MigrationPlan → W → C → MigrationPlan}
    {warnings : List W} {plan asked : MigrationPlan}
    (ends : Ends (askEach promptFn put warnings plan) asked)
    (keeps : ∀ plan w c, P plan → P (put plan w c)) (holds : P plan) : P asked := by
  refine fold_keeps ?_ holds ends
  intro w _ plan next holds step
  obtain ⟨c, _, rfl⟩ := map_ends step
  exact keeps plan w c holds

section Questions
variable {plan : MigrationPlan}

theorem stamp_questions {stamp : MigrationAction → MigrationAction}
    (kept : ∀ a, (stamp a).unanswered = a.unanswered) (i : Nat) :
    (plan.edit [(i, stamp)]).questions = plan.questions := by
  refine edit_questions fun e mem a => ?_
  obtain rfl := List.mem_singleton.mp mem
  exact kept a

theorem stamps_questions {α : Type} {place : α → Nat}
    {stamp : α → MigrationAction → MigrationAction}
    (kept : ∀ x a, (stamp x a).unanswered = a.unanswered) (answers : List α) :
    (plan.edit (answers.map fun x => (place x, stamp x))).questions = plan.questions := by
  refine edit_questions fun e mem a => ?_
  obtain ⟨x, _, rfl⟩ := List.mem_map.mp mem
  exact kept x a

theorem mapped_questions {g : MigrationAction → MigrationAction}
    (kept : ∀ a, (g a).unanswered = a.unanswered) :
    MigrationPlan.questions { plan with actions := plan.actions.map g } = plan.questions := by
  simp [MigrationPlan.questions, kept]

theorem flagged_unanswered (deleteSet : String × String → Bool) (a : MigrationAction) :
    (applyDeleteNullRows deleteSet a).unanswered = a.unanswered := by
  unfold applyDeleteNullRows
  split <;> rfl

theorem deleted_questions (toDelete : List (String × String)) :
    (deleteNullRowsOf toDelete plan).questions = plan.questions := by
  induction toDelete generalizing plan with
  | nil => rfl
  | cons key rest ih =>
    exact ih.trans (mapped_questions fun a => delete_null_rows_unanswered a key)

variable {prompts : RevisionPromptFns σ} {lowercase displayFloat : String → String}
  {levenshtein : String → String → Nat} {baseline : List TableDef} {next : MigrationPlan}

theorem addition_questions (ends : Ends (additionStage prompts baseline plan) next) :
    next.questions = plan.questions := by
  obtain ⟨first, asked, ends⟩ := bind_ends ends
  obtain ⟨_, _, ends⟩ := bind_ends ends
  obtain ⟨second, orphans, ends⟩ := bind_ends ends
  obtain ⟨third, checks, ends⟩ := bind_ends ends
  have unique : first.questions = plan.questions :=
    ask_each_keeps (P := fun p => p.questions = plan.questions) asked
      (fun _ w c same => (stamp_questions (unique_unanswered · c) w.actionIndex).trans same) rfl
  have orphan : second.questions = plan.questions :=
    ask_each_keeps (P := fun p => p.questions = plan.questions) orphans
      (fun _ w c same => (stamp_questions (fk_orphan_unanswered · c) w.actionIndex).trans same)
      unique
  have check : third.questions = plan.questions :=
    ask_each_keeps (P := fun p => p.questions = plan.questions) checks
      (fun _ w c same => (stamp_questions (check_unanswered · c) w.actionIndex).trans same) orphan
  exact ask_each_keeps (P := fun p => p.questions = plan.questions) ends
    (fun _ w c same =>
      (stamp_questions (primary_key_unanswered · c) w.actionIndex).trans same) check

theorem review_questions (ends : Ends (reviewStage prompts displayFloat baseline plan) next) :
    next.questions = plan.questions := by
  obtain ⟨first, cascades, ends⟩ := bind_ends ends
  obtain ⟨second, sequences, ends⟩ := bind_ends ends
  obtain ⟨third, strengthenings, ends⟩ := bind_ends ends
  have kept : first.questions = plan.questions :=
    ask_each_keeps (P := fun p => p.questions = plan.questions) cascades
      (fun _ _ _ same => same) rfl
  have widened : second.questions = plan.questions :=
    ask_each_keeps (P := fun p => p.questions = plan.questions) sequences
      (fun _ w c same =>
        (stamp_questions (big_int_unanswered · w.column c) w.actionIndex).trans same)
      kept
  have reviewed : third.questions = plan.questions :=
    ask_each_keeps (P := fun p => p.questions = plan.questions) strengthenings
      (fun _ _ _ same => same) widened
  exact ask_each_keeps (P := fun p => p.questions = plan.questions) ends
    (fun _ _ _ same => same) reviewed

theorem fill_questions {fillWithArgs deleteNullRowsArgs : List String}
    (ends : Ends (fillStage lowercase fillWithArgs deleteNullRowsArgs prompts.deleteNullRows
      prompts.fillWith prompts.enumQuoted baseline plan) next) :
    next.questions = plan.questions := by
  have given : (applyDeleteNullRowsToPlan (applyFillWithToPlan plan
      (parseFillWithArgs fillWithArgs)) (parseDeleteNullRowsArgs deleteNullRowsArgs)).questions =
        plan.questions :=
    (mapped_questions (flagged_unanswered _)).trans (mapped_questions (fill_unanswered · _))
  unfold fillStage at ends
  simp only at ends
  split at ends
  · rw [pure_ends ends, given]
  obtain ⟨⟨plan', remaining⟩, handled, ends⟩ := bind_ends ends
  obtain ⟨sorted, _, same⟩ := map_ends handled
  obtain ⟨rfl, rfl⟩ := Prod.mk.inj same
  simp only at ends
  split at ends
  · rw [pure_ends ends, deleted_questions, given]
  · obtain ⟨values, _, rfl⟩ := map_ends ends
    exact (mapped_questions (fill_unanswered · values)).trans
      ((deleted_questions sorted.1).trans given)

theorem replaced_questions
    (ends : Ends (handleMissingEnumFillWith levenshtein prompts.enumBare baseline plan) next) :
    next.questions = plan.questions := by
  unfold handleMissingEnumFillWith at ends
  simp only at ends
  split at ends
  · rw [pure_ends ends]
  · obtain ⟨collected, _, rfl⟩ := map_ends ends
    exact stamps_questions (fun p a => enum_fill_unanswered a p.2) collected

theorem narrowing_questions (ends : Ends (narrowingStage prompts lowercase baseline plan) next) :
    next.questions = plan.questions := by
  unfold narrowingStage at ends
  simp only at ends
  split at ends
  · rw [pure_ends ends]
  · obtain ⟨strategies, _, rfl⟩ := map_ends ends
    exact stamps_questions (fun (p : TypeNarrowingWarning × NarrowingStrategy) a =>
      narrowing_unanswered a p.2) _

theorem timezone_questions (ends : Ends (timezoneStage prompts baseline plan) next) :
    next.questions = plan.questions := by
  unfold timezoneStage at ends
  simp only at ends
  split at ends
  · rw [pure_ends ends]
  · obtain ⟨choices, _, rfl⟩ := map_ends ends
    exact stamps_questions (fun (p : TimezoneConversionWarning × String) a =>
      timezone_unanswered a p.2) _

theorem default_questions (ends : Ends (defaultStage prompts baseline plan) next) :
    next.questions = plan.questions :=
  ask_each_keeps (P := fun p => p.questions = plan.questions) ends
    (fun _ w c same => (stamp_questions (backfill_unanswered · c) w.actionIndex).trans same) rfl

end Questions

/-! What the refusals read -/

section Refusals
variable {plan plan' : MigrationPlan}

theorem filtered_questions {α : Type} {g : MigrationAction → Option α}
    (blind : ∀ a, g a.unanswered = g a) :
    plan.questions.filterMap g = plan.actions.filterMap g := by
  rw [MigrationPlan.questions, List.filterMap_map]
  exact List.filterMap_congr fun a _ => blind a

theorem listed_questions {α : Type} {g : MigrationAction → List α}
    (blind : ∀ a, g a.unanswered = g a) : plan.questions.flatMap g = plan.actions.flatMap g := by
  rw [MigrationPlan.questions, List.flatMap_map]
  exact List.flatMap_congr fun a _ => blind a

theorem introduced_blind (dropSet : DropSet) (a : MigrationAction) :
    introducedFks dropSet a.unanswered = introducedFks dropSet a := by
  cases a with
  | addConstraint table constraint => cases constraint <;> rfl
  | _ => rfl

theorem dangling_questions (same : plan.questions = plan'.questions) (baseline : List TableDef) :
    findDanglingFkDrops plan baseline = findDanglingFkDrops plan' baseline := by
  have drops : collectDropSet plan.actions = collectDropSet plan'.actions := by
    rw [collectDropSet, collectDropSet, ← filtered_questions fun a => by cases a <;> rfl, same,
      filtered_questions fun a => by cases a <;> rfl]
  have removed : collectExplicitlyRemovedFks plan.actions =
      collectExplicitlyRemovedFks plan'.actions := by
    rw [collectExplicitlyRemovedFks, collectExplicitlyRemovedFks,
      ← filtered_questions fun a => by cases a <;> rfl, same,
      filtered_questions fun a => by cases a <;> rfl]
  have introduced : ∀ dropSet, plan.actions.flatMap (introducedFks dropSet) =
      plan'.actions.flatMap (introducedFks dropSet) := by
    intro dropSet
    rw [← listed_questions (introduced_blind dropSet), same,
      listed_questions (introduced_blind dropSet)]
  simp only [findDanglingFkDrops, collectSurvivingFks, drops, removed, introduced]

theorem type_changes_questions (same : plan.questions = plan'.questions)
    (baseline : List TableDef) :
    findConstraintTypeChanges plan baseline = findConstraintTypeChanges plan' baseline := by
  have removed : removes plan = removes plan' := by
    rw [removes, removes, ← filtered_questions fun a => by cases a <;> rfl, same,
      filtered_questions fun a => by cases a <;> rfl]
  have added : adds plan = adds plan' := by
    rw [adds, adds, ← filtered_questions, same, filtered_questions]
    all_goals
      intro a
      cases a with
      | addConstraint table constraint => cases constraint <;> rfl
      | _ => rfl
  rw [findConstraintTypeChanges, findConstraintTypeChanges, removed, added]

theorem removals_questions (same : plan.questions = plan'.questions) :
    findPrimaryKeyRemovals plan = findPrimaryKeyRemovals plan' := by
  have gains : ∀ a : MigrationAction, gainsPrimaryKey a.unanswered = gainsPrimaryKey a := by
    intro a
    cases a with
    | addConstraint table constraint => cases constraint <;> rfl
    | _ => rfl
  have gaining : plan.actions.filterMap gainsPrimaryKey =
      plan'.actions.filterMap gainsPrimaryKey := by
    rw [← filtered_questions gains, same, filtered_questions gains]
  have dropped : plan.actions.filterMap dropsTable = plan'.actions.filterMap dropsTable := by
    rw [← filtered_questions fun a => by cases a <;> rfl, same,
      filtered_questions fun a => by cases a <;> rfl]
  simp only [findPrimaryKeyRemovals, gaining, dropped]
  rw [← filtered_questions fun a => by cases a <;> rfl, same,
    filtered_questions fun a => by cases a <;> rfl]

theorem refusals_ok {baseline : List TableDef} (passed : refusals baseline plan = .ok ()) :
    findDanglingFkDrops plan baseline = [] ∧ findConstraintTypeChanges plan baseline = [] ∧
      findPrimaryKeyRemovals plan = [] := by
  unfold refusals at passed
  split at passed
  · cases passed
  · rename_i none_dangling
    split at passed
    · cases passed
    · rename_i none_changed
      rw [not_or, not_not, not_not] at none_changed
      exact ⟨not_not.mp none_dangling, none_changed⟩

end Refusals

/-! What the later answers leave alone -/

section Late
variable {α : Type} {f : Nat → MigrationAction → Option α} {plan next : MigrationPlan}

theorem edit_scan {edits : List (Edits.Edit MigrationAction)}
    (blind : ∀ e ∈ edits, ∀ i a, f i (e.2 a) = f i a) :
    scanActions (plan.edit edits) f = scanActions plan f := by
  have views : (Edits.run edits plan.actions).map (fun a i => f i a) =
      plan.actions.map fun a i => f i a :=
    Edits.run_view (fun e mem a => funext fun i => blind e mem i a) plan.actions
  have reads : ∀ actions : List MigrationAction, (actions.zipIdx.filterMap fun p => f p.2 p.1) =
      ((actions.map fun a i => f i a).zipIdx).filterMap fun p => p.1 p.2 := by
    intro actions
    rw [List.zipIdx_map, List.filterMap_map]
    rfl
  change ((Edits.run edits plan.actions).zipIdx.filterMap fun p => f p.2 p.1) =
    plan.actions.zipIdx.filterMap fun p => f p.2 p.1
  rw [reads, reads, views]

theorem stamps_scan {β : Type} {place : β → Nat} {stamp : β → MigrationAction → MigrationAction}
    (blind : ∀ x i a, f i (stamp x a) = f i a) (answers : List β) :
    scanActions (plan.edit (answers.map fun x => (place x, stamp x))) f = scanActions plan f := by
  refine edit_scan fun e mem i a => ?_
  obtain ⟨x, _, rfl⟩ := List.mem_map.mp mem
  exact blind x i a

variable {prompts : RevisionPromptFns σ} {lowercase : String → String} {baseline : List TableDef}

theorem narrowing_scan (blind : ∀ strategy i a, f i (stampNarrowing strategy a) = f i a)
    (ends : Ends (narrowingStage prompts lowercase baseline plan) next) :
    scanActions next f = scanActions plan f := by
  unfold narrowingStage at ends
  simp only at ends
  split at ends
  · rw [pure_ends ends]
  · obtain ⟨strategies, _, rfl⟩ := map_ends ends
    exact stamps_scan (fun p : TypeNarrowingWarning × NarrowingStrategy => blind p.2) _

theorem timezone_scan (blind : ∀ timezone i a, f i (stampTimezone timezone a) = f i a)
    (ends : Ends (timezoneStage prompts baseline plan) next) :
    scanActions next f = scanActions plan f := by
  unfold timezoneStage at ends
  simp only at ends
  split at ends
  · rw [pure_ends ends]
  · obtain ⟨choices, _, rfl⟩ := map_ends ends
    exact stamps_scan (fun p : TimezoneConversionWarning × String => blind p.2) _

theorem default_scan (blind : ∀ choice i a, f i (stampBackfill choice a) = f i a)
    (ends : Ends (defaultStage prompts baseline plan) next) :
    scanActions next f = scanActions plan f := by
  refine ask_each_keeps (P := fun p => scanActions p f = scanActions plan f) ends ?_ rfl
  intro p w c same
  refine Eq.trans (edit_scan fun e mem i a => ?_) same
  obtain rfl := List.mem_singleton.mp mem
  exact blind c i a

theorem later_scan {zoned : MigrationPlan}
    (zone : ∀ timezone i a, f i (stampTimezone timezone a) = f i a)
    (back : ∀ choice i a, f i (stampBackfill choice a) = f i a)
    (conversions : Ends (timezoneStage prompts baseline plan) zoned)
    (defaults : Ends (defaultStage prompts baseline zoned) next) :
    scanActions next f = scanActions plan f := by
  rw [default_scan back defaults, timezone_scan zone conversions]

theorem replaced_scan {levenshtein : String → String → Nat}
    (blind : ∀ mappings i a, f i (stampEnumFill mappings a) = f i a)
    (ends : Ends (handleMissingEnumFillWith levenshtein prompts.enumBare baseline plan) next) :
    scanActions next f = scanActions plan f := by
  unfold handleMissingEnumFillWith at ends
  simp only at ends
  split at ends
  · rw [pure_ends ends]
  · obtain ⟨collected, _, rfl⟩ := map_ends ends
    exact stamps_scan (fun p => blind p.2) collected

end Late

/-! The written plan -/

section Run
variable {lowercase displayFloat : String → String} {levenshtein : String → String → Nat}
  {prompts : RevisionPromptFns σ} {uuid now : String} {currentModels : List TableDef}
  {appliedPlans : List MigrationPlan} {args : RevisionArgs} {written : MigrationPlan}

/-- The plans between the stages of a run. -/
theorem revision_stages
    (ends : Ends (cmdRevisionCore lowercase displayFloat levenshtein prompts uuid now currentModels
      appliedPlans args) written) :
    ∃ baseline settled filled replaced final, schemaFromPlans appliedPlans = .ok baseline ∧
      refusals baseline settled = .ok () ∧ final.questions = settled.questions ∧
      (∃ reviewed, Ends (fillStage lowercase args.fillWith args.deleteNullRows
        prompts.deleteNullRows prompts.fillWith prompts.enumQuoted baseline reviewed) filled) ∧
      Ends (handleMissingEnumFillWith levenshtein prompts.enumBare baseline filled) replaced ∧
      (∃ narrowed zoned, Ends (narrowingStage prompts lowercase baseline replaced) narrowed ∧
        Ends (timezoneStage prompts baseline narrowed) zoned ∧
        Ends (defaultStage prompts baseline zoned) final) ∧
      written = finishPlan args.message uuid now final := by
  obtain ⟨⟨planned, baseline⟩, start, ends⟩ := bind_ends ends
  obtain ⟨plan, _, start⟩ := bind_ends start
  obtain ⟨recreated, _, start⟩ := bind_ends start
  split at start
  · exact absurd start break_off_ends
  obtain ⟨schema, reconstructed, start⟩ := bind_ends start
  obtain ⟨rfl, rfl⟩ := Prod.mk.inj (pure_ends start)
  obtain ⟨settled, _, ends⟩ := bind_ends ends
  obtain ⟨⟨⟩, passed, ends⟩ := bind_ends ends
  obtain ⟨added, additions, ends⟩ := bind_ends ends
  obtain ⟨reviewed, review, ends⟩ := bind_ends ends
  obtain ⟨filled, fills, ends⟩ := bind_ends ends
  obtain ⟨replaced, replacements, ends⟩ := bind_ends ends
  obtain ⟨_, _, ends⟩ := bind_ends ends
  obtain ⟨narrowed, narrowings, ends⟩ := bind_ends ends
  obtain ⟨zoned, conversions, ends⟩ := bind_ends ends
  obtain ⟨final, defaults, ends⟩ := bind_ends ends
  have fills := within_ends fills
  have replacements := within_ends replacements
  refine ⟨baseline, settled, filled, replaced, final, settled_ends reconstructed,
    settled_ends passed, ?_, ⟨reviewed, fills⟩, replacements,
    ⟨narrowed, zoned, narrowings, conversions, defaults⟩, pure_ends ends⟩
  rw [default_questions defaults, timezone_questions conversions, narrowing_questions narrowings,
    replaced_questions replacements, fill_questions fills, review_questions review,
    addition_questions additions]

/-- What is checked before the questions is true of the plan that is written after them. -/
theorem written_plan_checked
    (ends : Ends (cmdRevisionCore lowercase displayFloat levenshtein prompts uuid now currentModels
      appliedPlans args) written) :
    ∃ baseline, schemaFromPlans appliedPlans = .ok baseline ∧
      findDanglingFkDrops written baseline = [] ∧
      findConstraintTypeChanges written baseline = [] ∧ findPrimaryKeyRemovals written = [] := by
  obtain ⟨baseline, settled, _, _, final, reconstructed, passed, same, _, _, _, rfl⟩ :=
    revision_stages ends
  obtain ⟨dangling, changes, removals⟩ := refusals_ok passed
  refine ⟨baseline, reconstructed, ?_, ?_, ?_⟩
  · exact (dangling_questions same baseline).trans dangling
  · exact (type_changes_questions same baseline).trans changes
  · exact (removals_questions same).trans removals

/-- A label that a column of the baseline loses has a replacement. -/
def LabelsCovered (baseline : List TableDef) : MigrationAction → Prop
  | .modifyColumnType table column (.complex (.enum _ (.string newValues))) fillWith _ _ =>
      ∀ c name oldValues, findColumnInSchema baseline table column = some c →
        c.type = .complex (.enum name (.string oldValues)) →
          ∀ v ∈ oldValues, v ∉ newValues → ∃ replacement, (v, replacement) ∈ fillWith.getD []
  | _ => True

theorem labels_covered {baseline : List TableDef} {i : Nat} {a : MigrationAction}
    (none_missing : missingEnumFillWithForAction baseline i a = none) :
    LabelsCovered baseline a := by
  unfold LabelsCovered
  split
  · rename_i table column newName newValues fillWith strategy timezone
    intro c name oldValues known string v old gone
    simp only [missingEnumFillWithForAction, known, Option.map_some, string] at none_missing
    split at none_missing
    · rename_i covered
      have removed : v ∈ oldValues.filter (· ∉ newValues) := by simp [old, gone]
      have listed := List.filter_eq_nil_iff.mp covered v removed
      simp only [List.all_eq_true, decide_eq_true_eq, not_forall, not_not] at listed
      obtain ⟨⟨label, replacement⟩, mem, rfl⟩ := listed
      exact ⟨replacement, mem⟩
    · cases none_missing
  · trivial

/-- A label that is lost has a replacement. A value that the loader finds missing in the written
    plan is of an added column that the command names for the deletion of rows, or of a column
    that has a default. -/
theorem written_plan_filled
    (ends : Ends (cmdRevisionCore lowercase displayFloat levenshtein prompts uuid now currentModels
      appliedPlans args) written) :
    ∃ baseline, schemaFromPlans appliedPlans = .ok baseline ∧
      (∀ a ∈ written.actions, LabelsCovered baseline a) ∧
      ∀ a ∈ written.actions, ∀ table column,
        validateAction a = .error (.missingFillWith table column) →
          (∃ c, a = .addColumn table c none ∧ c.name = column ∧
            parseDeleteNullRowsArgs args.deleteNullRows (table, column) = true ∧
            parseFillWithArgs args.fillWith (table, column) = none) ∨
          ∃ deleteNullRows c, a = .modifyColumnNullable table column false none deleteNullRows ∧
            findColumnInSchema baseline table column = some c ∧ c.default ≠ none := by
  obtain ⟨baseline, settled, filled, replaced, final, reconstructed, _, _, ⟨reviewed, fills⟩,
    replacements, ⟨narrowed, zoned, narrowings, conversions, defaults⟩, rfl⟩ :=
    revision_stages ends
  have enums : findMissingEnumFillWith final baseline = findMissingEnumFillWith replaced baseline :=
    (later_scan (f := missingEnumFillWithForAction baseline)
      (fun timezone i a => by cases a <;> rfl)
      (fun choice i a => by cases a <;> rfl) conversions defaults).trans
      (narrowing_scan (fun strategy i a => by cases a <;> rfl) narrowings)
  have values : findMissingFillWith lowercase final baseline =
      findMissingFillWith lowercase filled baseline :=
    calc scanActions final (missingFillWithForAction lowercase baseline)
      _ = scanActions narrowed (missingFillWithForAction lowercase baseline) :=
        later_scan (fun timezone i a => by cases a <;> rfl) (fun choice i a => by cases a <;> rfl)
          conversions defaults
      _ = scanActions replaced (missingFillWithForAction lowercase baseline) :=
        narrowing_scan (fun strategy i a => by cases a <;> rfl) narrowings
      _ = scanActions filled (missingFillWithForAction lowercase baseline) :=
        replaced_scan (fun mappings i a => by cases a <;> rfl) replacements
  have none_lost := enums.trans (enum_stage_missing replacements)
  refine ⟨baseline, reconstructed, fun a mem => ?_, ?_⟩
  · obtain ⟨i, there⟩ := List.mem_iff_getElem?.mp mem
    refine labels_covered (i := i) (Option.eq_none_iff_forall_ne_some.mpr fun r asked => ?_)
    have listed : r ∈ findMissingEnumFillWith final baseline :=
      (mem_scan (f := missingEnumFillWithForAction baseline)).mpr ⟨i, a, there, asked⟩
    rw [none_lost] at listed
    cases listed
  intro a mem table column refused
  obtain ⟨i, there⟩ := List.mem_iff_getElem?.mp mem
  rcases missing_or_default lowercase baseline i refused with ⟨r, asked, rfl, rfl⟩ | defaulted
  · refine .inl ?_
    have listed : r ∈ findMissingFillWith lowercase final baseline :=
      (mem_scan (f := missingFillWithForAction lowercase baseline)).mpr ⟨i, a, there, asked⟩
    rw [values, fill_stage_missing fills] at listed
    have left := (List.mem_filter.mp listed).2
    simp only [Bool.and_eq_true, decide_eq_true_eq, Option.isNone_iff_eq_none] at left
    rcases refused_missing refused with ⟨c, rfl, named, _, _⟩ | ⟨deleteNullRows, rfl, _⟩
    · exact ⟨c, rfl, named, left.2.1, left.2.2⟩
    · have kind := (missing_tightened asked).2
      rw [left.1] at kind
      exact absurd kind (by decide)
  · exact .inr defaulted

end Run

/-! A short run -/

/-- Everything is answered, and never with a refusal. -/
def truncating : RevisionPromptFns Unit where
  recreate _ := pure true
  deleteNullRows _ _ := pure true
  fillWith _ _ value := pure value
  enumQuoted _ _ _ := pure "''"
  enumBare _ _ _ values := pure (values.headD "")
  fkPolicyChange _ := pure true
  typeNarrowing warnings := pure (some (warnings.map fun _ => .truncate))
  timezoneConversion warnings := pure (some (warnings.map fun _ => "UTC"))
  remapEnumValues _ := pure true
  dropResolution _ := pure (some .drop)
  defaultChange _ := pure (some .skip)
  uniqueAddition _ := pure (some .continueWithoutCleanup)
  fkOrphanAddition _ := pure (some .delete)
  checkAddition _ := pure (some .delete)
  pkAddition _ := pure (some .continueWithoutCleanup)
  cascadeReach _ := pure (some ())
  sequenceExhaustion _ := pure (some .proceed)
  checkStrengthening _ := pure (some ())
  checkTypeMismatch _ := pure (some ())

def badgePlans : List MigrationPlan :=
  [⟨"", none, none, 1, [.createTable "badge" [.new "code" (.simple .text) false] []]⟩]

def gradeColumn : ColumnDef := .new "grade" (.simple .integer) false

def badgeModels : List TableDef :=
  [⟨"badge", none, [.new "code" (.complex (.varchar 10)) false, gradeColumn], []⟩]

def badgeArgs : RevisionArgs := ⟨"shorten", [], ["badge.grade"]⟩

def badgeRun (prompts : RevisionPromptFns Unit) : Asking Unit Stop MigrationPlan :=
  cmdRevisionCore id id (fun _ _ => 0) prompts "id" "now" badgeModels badgePlans badgeArgs

def badgeWritten : MigrationPlan :=
  ⟨"id", some "shorten", some "now", 2,
    [.modifyColumnType "badge" "code" (.complex (.varchar 10)) none (some .truncate) none,
      .addColumn "badge" gradeColumn none]⟩

def endsWith (run : Asking Unit Stop MigrationPlan) (written : MigrationPlan) : Bool :=
  match run () with
  | .ok (plan, _) => plan = written
  | .error _ => false

theorem ends_with {run : Asking Unit Stop MigrationPlan} {written : MigrationPlan}
    (same : endsWith run written = true) : Ends run written := by
  unfold endsWith at same
  cases done : run () with
  | error e => simp [done] at same
  | ok r =>
    rw [done] at same
    exact ⟨(), r.2, by rw [done, ← of_decide_eq_true same]⟩

set_option maxRecDepth 100000 in
theorem badge_run : Ends (badgeRun truncating) badgeWritten := ends_with (by decide)

/-- The short badge codes leave nothing dangling. -/
theorem badge_checked :
    ∃ baseline, schemaFromPlans badgePlans = .ok baseline ∧
      findDanglingFkDrops badgeWritten baseline = [] ∧
      findConstraintTypeChanges badgeWritten baseline = [] ∧
      findPrimaryKeyRemovals badgeWritten = [] :=
  written_plan_checked badge_run

/-- The grade is left without a value, because the command deletes the rows that lack one. -/
theorem grade_unfilled :
    validateAction (.addColumn "badge" gradeColumn none) =
        .error (.missingFillWith "badge" "grade") ∧
      ∃ baseline, schemaFromPlans badgePlans = .ok baseline ∧
        (∀ a ∈ badgeWritten.actions, LabelsCovered baseline a) ∧
        ∀ a ∈ badgeWritten.actions, ∀ table column,
          validateAction a = .error (.missingFillWith table column) →
            (∃ c, a = .addColumn table c none ∧ c.name = column ∧
              parseDeleteNullRowsArgs badgeArgs.deleteNullRows (table, column) = true ∧
              parseFillWithArgs badgeArgs.fillWith (table, column) = none) ∨
            ∃ deleteNullRows c,
              a = .modifyColumnNullable table column false none deleteNullRows ∧
                findColumnInSchema baseline table column = some c ∧ c.default ≠ none :=
  ⟨by decide, written_plan_filled badge_run⟩

end Vespertide
