import Mathlib
import Vespertide.Narrowing
import Vespertide.WrittenPlans

/-!
The question about narrowings, as the terminal asks it. Only strategies that the SQL
generator knows for a narrowing are offered, and for two kinds there is none, so no plan
with such a change of a known column is ever written.
-/
namespace Vespertide
open Dialogue TypeChanges

variable {σ : Type}

/-! The question -/

inductive StrategyOption where
  | truncate | delete | setToValue
  deriving DecidableEq, Repr

def applicableStrategies : NarrowingKind → List StrategyOption
  | .varcharLength _ _ | .charLength _ _ | .varcharToCharShorter _ _ | .charToVarcharShorter _ _
  | .textToVarchar _ | .textToChar _ | .numericScale _ _ => [.truncate, .delete, .setToValue]
  | .numericIntegerDigits _ _ | .integerSize _ _ => [.delete, .setToValue]
  | .floatSize _ _ | .timestamptzToTimestamp => []

def isStringTarget : NarrowingKind → Bool
  | .varcharLength _ _ | .charLength _ _ | .varcharToCharShorter _ _ | .charToVarcharShorter _ _
  | .textToVarchar _ | .textToChar _ => true
  | _ => false

/-- A value between quotes is taken as it is. -/
def quoteValueForTarget (raw : String) (kind : NarrowingKind) : String :=
  if !isStringTarget kind then raw
  else if raw.toList.head? = some '\'' ∧ raw.toList.getLast? = some '\'' then raw
  else "'" ++ escapeSqlStringLiteral raw ++ "'"

structure Terminal (σ : Type) where
  select : (items : Nat) → Asking σ String (Fin items)
  input : Asking σ String String

section Prompt
variable (terminal : Terminal σ)

/-- Without an applicable strategy nothing is asked, and the command is given up. -/
def promptTypeNarrowing (w : TypeNarrowingWarning) : Asking σ String (Option NarrowingStrategy) :=
  let applicable := applicableStrategies w.kind
  if applicable = [] then pure none
  else do
    let selection ← terminal.select applicable.length
    match applicable[selection] with
    | .truncate => pure (some .truncate)
    | .delete => pure (some .delete)
    | .setToValue =>
        (fun raw => some (.setToValue (quoteValueForTarget raw w.kind))) <$> terminal.input

def promptTypeNarrowings :
    List TypeNarrowingWarning → Asking σ String (Option (List NarrowingStrategy))
  | [] => pure (some [])
  | w :: rest => do
      match ← promptTypeNarrowing terminal w with
      | none => pure none
      | some strategy => Option.map (strategy :: ·) <$> promptTypeNarrowings rest

end Prompt

/-! The answers -/

def NarrowingStrategy.option : NarrowingStrategy → StrategyOption
  | .truncate => .truncate
  | .delete => .delete
  | .setToValue _ => .setToValue

theorem narrowing_answer {terminal : Terminal σ} {w : TypeNarrowingWarning}
    {strategy : NarrowingStrategy}
    (ends : Ends (promptTypeNarrowing terminal w) (some strategy)) :
    strategy.option ∈ applicableStrategies w.kind := by
  unfold promptTypeNarrowing at ends
  simp only at ends
  split at ends
  · cases pure_ends ends
  obtain ⟨selection, _, ends⟩ := bind_ends ends
  have offered := List.getElem_mem selection.isLt
  change (applicableStrategies w.kind)[selection] ∈ applicableStrategies w.kind at offered
  cases chosen : (applicableStrategies w.kind)[selection] with
  | truncate =>
    rw [chosen] at ends offered
    obtain rfl := Option.some.inj (pure_ends ends)
    exact offered
  | delete =>
    rw [chosen] at ends offered
    obtain rfl := Option.some.inj (pure_ends ends)
    exact offered
  | setToValue =>
    rw [chosen] at ends offered
    obtain ⟨raw, _, same⟩ := map_ends ends
    obtain rfl := Option.some.inj same
    exact offered

theorem narrowing_answers {terminal : Terminal σ} {warnings : List TypeNarrowingWarning}
    {strategies : List NarrowingStrategy}
    (ends : Ends (promptTypeNarrowings terminal warnings) (some strategies)) :
    List.Forall₂ (fun w s => s.option ∈ applicableStrategies w.kind) warnings strategies := by
  induction warnings generalizing strategies with
  | nil =>
    obtain rfl := Option.some.inj (pure_ends ends)
    exact .nil
  | cons w rest ih =>
    obtain ⟨answer, asked, ends⟩ := bind_ends ends
    cases answer with
    | none => cases pure_ends ends
    | some strategy =>
      obtain ⟨later, answers, same⟩ := map_ends ends
      obtain ⟨others, rfl, rfl⟩ := Option.map_eq_some_iff.mp same.symm
      exact .cons (narrowing_answer asked) (ih answers)

theorem applicable_builds {baseline : List TableDef} {table column : String} {c : ColumnDef}
    {newType : ColumnType} {kind : NarrowingKind} {strategy : NarrowingStrategy}
    (known : findColumnInSchema baseline table column = some c)
    (narrows : isNarrowing c.type newType = some kind)
    (offered : strategy.option ∈ applicableStrategies kind) (backend : DatabaseBackend) :
    ∃ queries, buildNarrowingPreprocess backend table column newType strategy baseline =
      .ok queries := by
  have looked : lookupOldType table column baseline = some c.type := by
    change (findColumnInSchema baseline table column).map ColumnDef.type = _
    rw [known]
    rfl
  simp only [buildNarrowingPreprocess, looked, narrows]
  cases kind <;> cases strategy <;>
    first
    | exact ⟨_, rfl⟩
    | simp [applicableStrategies, NarrowingStrategy.option] at offered

/-! The written plan -/

def typeChangeOf (i : Nat) : MigrationAction → Option (Nat × String × String × ColumnType)
  | .modifyColumnType table column newType _ _ _ => some (i, table, column, newType)
  | _ => none

def strategyOf (i : Nat) : MigrationAction → Option (Nat × Option NarrowingStrategy)
  | .modifyColumnType _ _ _ _ strategy _ => some (i, strategy)
  | _ => none

theorem type_change_at {plan : MigrationPlan} {i : Nat} {table column : String}
    {newType : ColumnType} (mem : (i, table, column, newType) ∈ scanActions plan typeChangeOf) :
    ∃ fillWith strategy timezone, plan.actions[i]? =
      some (.modifyColumnType table column newType fillWith strategy timezone) := by
  obtain ⟨j, b, here, same⟩ := mem_scan.mp mem
  cases b with
  | modifyColumnType table' column' newType' fillWith strategy timezone =>
    obtain ⟨rfl, rfl, rfl, rfl⟩ : j = i ∧ table' = table ∧ column' = column ∧
        newType' = newType := by simpa [typeChangeOf] using same
    exact ⟨fillWith, strategy, timezone, here⟩
  | _ => cases same

theorem strategy_at {plan : MigrationPlan} {i : Nat} {strategy : Option NarrowingStrategy}
    (mem : (i, strategy) ∈ scanActions plan strategyOf) :
    ∃ table column newType fillWith timezone, plan.actions[i]? =
      some (.modifyColumnType table column newType fillWith strategy timezone) := by
  obtain ⟨j, b, here, same⟩ := mem_scan.mp mem
  cases b with
  | modifyColumnType table column newType fillWith strategy' timezone =>
    obtain ⟨rfl, rfl⟩ : j = i ∧ strategy' = strategy := by simpa [strategyOf] using same
    exact ⟨table, column, newType, fillWith, timezone, here⟩
  | _ => cases same

theorem narrowing_entry {lowercase : String → String} {baseline : List TableDef} {i : Nat}
    {a : MigrationAction} {w : TypeNarrowingWarning}
    (warned : typeNarrowing lowercase baseline i a = some w) : w.actionIndex = i := by
  cases a with
  | modifyColumnType table column newType fillWith narrowing timezone =>
    obtain ⟨c, _, found⟩ := Option.bind_eq_some_iff.mp warned
    obtain ⟨kind, _, rfl⟩ := Option.map_eq_some_iff.mp found
    rfl
  | _ => cases warned

theorem paired_with {α β : Type} {R : α → β → Prop} {as : List α} {bs : List β}
    (each : List.Forall₂ R as bs) {a : α} (mem : a ∈ as) : ∃ b, (a, b) ∈ as.zip bs ∧ R a b := by
  induction each with
  | nil => cases mem
  | cons first _ ih =>
    rcases List.mem_cons.mp mem with rfl | later
    · exact ⟨_, List.mem_cons_self, first⟩
    · obtain ⟨b, paired, related⟩ := ih later
      exact ⟨b, List.mem_cons_of_mem _ paired, related⟩

/-- Every narrowing of a known column has a strategy that was offered for it once the
    narrowings are answered. -/
theorem narrowing_stage_answers {terminal : Terminal σ} {prompts : RevisionPromptFns σ}
    (asks : prompts.typeNarrowing = promptTypeNarrowings terminal) {lowercase : String → String}
    {baseline : List TableDef} {plan narrowed : MigrationPlan}
    (ends : Ends (narrowingStage prompts lowercase baseline plan) narrowed) {i : Nat}
    {a : MigrationAction} (here : plan.actions[i]? = some a) {w : TypeNarrowingWarning}
    (warned : typeNarrowing lowercase baseline i a = some w) :
    ∃ s, s.option ∈ applicableStrategies w.kind ∧
      narrowed.actions[i]? = some (stampNarrowing s a) := by
  have listed : w ∈ findTypeNarrowings lowercase plan baseline :=
    mem_scan.mpr ⟨i, a, here, warned⟩
  unfold narrowingStage at ends
  simp only at ends
  split at ends
  · rename_i none_warned
    rw [none_warned] at listed
    cases listed
  obtain ⟨strategies, answered, rfl⟩ := map_ends ends
  have answers := confirmed_ends answered
  rw [asks] at answers
  have each := narrowing_answers answers
  have ascending : ((findTypeNarrowings lowercase plan baseline).map (·.actionIndex)).Pairwise
      (· < ·) := scan_ascending narrowing_entry
  have positions : (((findTypeNarrowings lowercase plan baseline).zip strategies).map
      fun p => (p.1.actionIndex, stampNarrowing p.2)).map Prod.fst =
        (findTypeNarrowings lowercase plan baseline).map (·.actionIndex) := by
    rw [List.map_map]
    change List.map (TypeNarrowingWarning.actionIndex ∘ Prod.fst) _ = _
    rw [← List.map_map, List.map_fst_zip each.length_eq.le]
  obtain ⟨s, paired, offered⟩ := paired_with each listed
  have edit : (w.actionIndex, stampNarrowing s) ∈
      ((findTypeNarrowings lowercase plan baseline).zip strategies).map
        fun p => (p.1.actionIndex, stampNarrowing p.2) := List.mem_map.mpr ⟨(w, s), paired, rfl⟩
  have apart := positions ▸ ascending.imp Nat.ne_of_lt
  obtain rfl := narrowing_entry warned
  refine ⟨s, offered, ?_⟩
  rw [applyNarrowingStrategiesToPlan, MigrationPlan.edit, Edits.get_run, here, Option.map_some,
    Edits.at_only apart edit]

/-- Every narrowing of a known column in the written plan has a strategy that the generator
    can carry out on every backend. -/
theorem written_narrowings_build {lowercase displayFloat : String → String}
    {levenshtein : String → String → Nat} {terminal : Terminal σ} {prompts : RevisionPromptFns σ}
    (asks : prompts.typeNarrowing = promptTypeNarrowings terminal) {uuid now : String}
    {currentModels : List TableDef} {appliedPlans : List MigrationPlan} {args : RevisionArgs}
    {written : MigrationPlan}
    (ends : Ends (cmdRevisionCore lowercase displayFloat levenshtein prompts uuid now currentModels
      appliedPlans args) written) :
    ∃ baseline, schemaFromPlans appliedPlans = .ok baseline ∧
      ∀ table column newType fillWith strategy timezone,
        .modifyColumnType table column newType fillWith strategy timezone ∈ written.actions →
          ∀ c kind, findColumnInSchema baseline table column = some c →
            isNarrowing c.type newType = some kind →
              kind ≠ .timestamptzToTimestamp ∧ (∀ old new, kind ≠ .floatSize old new) ∧
                ∃ s, strategy = some s ∧ ∀ backend, ∃ queries,
                  buildNarrowingPreprocess backend table column newType s baseline =
                    .ok queries := by
  obtain ⟨baseline, settled, filled, replaced, final, reconstructed, _, _, _, _,
    ⟨narrowed, zoned, narrowings, conversions, defaults⟩, rfl⟩ := revision_stages ends
  refine ⟨baseline, reconstructed, ?_⟩
  intro table column newType fillWith strategy timezone mem c kind known narrows
  obtain ⟨i, there⟩ := List.mem_iff_getElem?.mp mem
  change final.actions[i]? = _ at there
  have changed : (i, table, column, newType) ∈ scanActions replaced typeChangeOf := by
    rw [← narrowing_scan (fun strategy i a => by cases a <;> rfl) narrowings,
      ← later_scan (fun timezone i a => by cases a <;> rfl)
        (fun choice i a => by cases a <;> rfl) conversions defaults]
    exact mem_scan.mpr ⟨i, _, there, rfl⟩
  have stamped : (i, strategy) ∈ scanActions narrowed strategyOf := by
    rw [← later_scan (fun timezone i a => by cases a <;> rfl)
      (fun choice i a => by cases a <;> rfl) conversions defaults]
    exact mem_scan.mpr ⟨i, _, there, rfl⟩
  obtain ⟨fillWith', strategy', timezone', here⟩ := type_change_at changed
  have warned : typeNarrowing lowercase baseline i
      (.modifyColumnType table column newType fillWith' strategy' timezone') =
        some ⟨i, table, column, kind, c.type.toDisplayString lowercase,
          newType.toDisplayString lowercase⟩ := by
    simp [typeNarrowing, known, narrows]
  obtain ⟨s, offered, after⟩ := narrowing_stage_answers asks narrowings here warned
  have given : strategy = some s := by
    obtain ⟨_, _, _, _, _, kept⟩ := strategy_at stamped
    rw [after] at kept
    cases kept
    rfl
  refine ⟨?_, ?_, s, given, fun backend => applicable_builds known narrows offered backend⟩
  · rintro rfl
    cases offered
  · rintro old new rfl
    cases offered

def firstOffered : Terminal Unit where
  select items := if h : 0 < items then pure ⟨0, h⟩ else breakOff ""
  input := pure ""

def firstAnswers : RevisionPromptFns Unit :=
  { truncating with typeNarrowing := promptTypeNarrowings firstOffered }

set_option maxRecDepth 100000 in
theorem badge_run_offered : Ends (badgeRun firstAnswers) badgeWritten := ends_with (by decide)

/-- The short badge codes are cut on every backend. -/
theorem badge_narrowed :
    ∃ baseline, schemaFromPlans badgePlans = .ok baseline ∧
      ∀ table column newType fillWith strategy timezone,
        .modifyColumnType table column newType fillWith strategy timezone ∈ badgeWritten.actions →
          ∀ c kind, findColumnInSchema baseline table column = some c →
            isNarrowing c.type newType = some kind →
              kind ≠ .timestamptzToTimestamp ∧ (∀ old new, kind ≠ .floatSize old new) ∧
                ∃ s, strategy = some s ∧ ∀ backend, ∃ queries,
                  buildNarrowingPreprocess backend table column newType s baseline =
                    .ok queries :=
  written_narrowings_build rfl badge_run_offered

end Vespertide
