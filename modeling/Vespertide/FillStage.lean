import Mathlib
import Vespertide.Answers
import Vespertide.Support.Dialogue

/-!
The values asked for ahead of a migration: for required columns without a value, and
for enum values that are removed. What is still missing afterwards is known exactly.
-/
namespace Vespertide
open Dialogue Text

variable {σ : Type}

/-! The arguments of the command -/

/-- `table.column` -/
def parseKey (s : List Char) : Option (String × String) :=
  (splitOnce '.' s).map fun p => (String.ofList p.1, String.ofList p.2)

abbrev FillValues := String × String → Option String

def FillValues.insert (values : FillValues) (key : String × String) (value : String) :
    FillValues := fun k => if k = key then some value else values k

/-- `table.column=value` -/
def parseFillWithArg (arg : String) : Option ((String × String) × String) :=
  (splitOnce '=' arg.toList).bind fun p => (parseKey p.1).map (·, String.ofList p.2)

def parseFillWithArgs (args : List String) : FillValues :=
  (args.filterMap parseFillWithArg).foldl (fun values p => values.insert p.1 p.2) fun _ => none

def parseDeleteNullRowsArgs (args : List String) (key : String × String) : Bool :=
  args.any fun arg => parseKey arg.toList = some key

/-! Required columns -/

def FillWithRequired.key (item : FillWithRequired) : String × String := (item.table, item.column)

def applyDeleteNullRows (deleteSet : String × String → Bool) :
    MigrationAction → MigrationAction
  | .modifyColumnNullable table column false fillWith none =>
      .modifyColumnNullable table column false fillWith
        (if deleteSet (table, column) then some true else none)
  | a => a

def applyDeleteNullRowsToPlan (plan : MigrationPlan) (deleteSet : String × String → Bool) :
    MigrationPlan := { plan with actions := plan.actions.map (applyDeleteNullRows deleteSet) }

/-- Only a column under a foreign key is asked about. -/
def deletesRows (deleteSet : String × String → Bool)
    (promptFn : String → String → Asking σ String Bool) (item : FillWithRequired) :
    Asking σ String Bool :=
  if item.hasForeignKey && !deleteSet item.key then promptFn item.table item.column
  else pure (deleteSet item.key)

/-- The columns whose rows are deleted, and the items that are left. -/
def sortMissing (deleteSet : String × String → Bool)
    (promptFn : String → String → Asking σ String Bool) :
    List FillWithRequired → Asking σ String (List (String × String) × List FillWithRequired)
  | [] => pure ([], [])
  | item :: rest => do
      let delete ← deletesRows deleteSet promptFn item
      let (toDelete, remaining) ← sortMissing deleteSet promptFn rest
      return if delete then (item.key :: toDelete, remaining) else (toDelete, item :: remaining)

def deleteNullRowsOf (toDelete : List (String × String)) (plan : MigrationPlan) : MigrationPlan :=
  toDelete.foldl (fun plan key => { plan with
    actions := plan.actions.map (stampDeleteNullRows key) }) plan

def handleDeleteNullRows (plan : MigrationPlan) (missing : List FillWithRequired)
    (deleteSet : String × String → Bool) (promptFn : String → String → Asking σ String Bool) :
    Asking σ String (MigrationPlan × List FillWithRequired) :=
  (fun sorted => (deleteNullRowsOf sorted.1 plan, sorted.2)) <$>
    sortMissing deleteSet promptFn missing

/-- An enum column is offered its values, another column its default value. -/
def askFillValue (promptFn : String → String → String → Asking σ String String)
    (enumPromptFn : String → String → List String → Asking σ String String)
    (item : FillWithRequired) : Asking σ String String :=
  match item.enumValues with
  | some enumValues => enumPromptFn item.table item.column enumValues
  | none => promptFn item.table item.column item.defaultValue

def collectFillWithValues (missing : List FillWithRequired) (fillValues : FillValues)
    (promptFn : String → String → String → Asking σ String String)
    (enumPromptFn : String → String → List String → Asking σ String String) :
    Asking σ String FillValues :=
  missing.foldlM (fun values item =>
    values.insert item.key <$> askFillValue promptFn enumPromptFn item) fillValues

def fillStage (lowercase : String → String) (fillWithArgs deleteNullRowsArgs : List String)
    (deletePromptFn : String → String → Asking σ String Bool)
    (promptFn : String → String → String → Asking σ String String)
    (enumPromptFn : String → String → List String → Asking σ String String)
    (baseline : List TableDef) (plan : MigrationPlan) : Asking σ String MigrationPlan := do
  let fillValues := parseFillWithArgs fillWithArgs
  let deleteSet := parseDeleteNullRowsArgs deleteNullRowsArgs
  let plan := applyDeleteNullRowsToPlan (applyFillWithToPlan plan fillValues) deleteSet
  let missing := findMissingFillWith lowercase plan baseline
  if missing = [] then pure plan
  else do
    let (plan, missing) ← handleDeleteNullRows plan missing deleteSet deletePromptFn
    if missing = [] then pure plan
    else applyFillWithToPlan plan <$>
      collectFillWithValues missing fillValues promptFn enumPromptFn

/-! Removed enum values -/

/-- A label that begins or ends with a quote loses it too. -/
def stripEnumQuotes (value : String) : String :=
  String.ofList ((value.toList.dropWhile (· = '\'')).rdropWhile (· = '\''))

def similarityThreshold : Nat := 3

section Replacements
variable (levenshtein : String → String → Nat)

def bestRenameCandidate (removed : String) (remaining : List String) : Option String :=
  (remaining.foldl (fun best candidate =>
    let d := levenshtein removed candidate
    if similarityThreshold < d then best
    else
      match best with
      | none => some (d, candidate)
      | some (current, _) => if d < current then some (d, candidate) else best) none).map Prod.snd

def reorderWithSuggestion (values : List String) : Option String → List String
  | none => values
  | some s => s :: values.filter (· ≠ s)

variable (enumPromptFn : EnumFillWithRequired → String → Option String → List String →
  Asking σ String String)

def askReplacement (item : EnumFillWithRequired) (removed : String) : Asking σ String String :=
  let suggestion := bestRenameCandidate levenshtein removed item.remainingValues
  stripEnumQuotes <$> enumPromptFn item removed suggestion
    (reorderWithSuggestion item.remainingValues suggestion)

def collectReplacements (item : EnumFillWithRequired) :
    Asking σ String (List (String × String)) :=
  item.removedValues.foldlM (fun mappings removed =>
    (fun value => extendMappings mappings [(removed, value)]) <$>
      askReplacement levenshtein enumPromptFn item removed) []

def collectEnumFillWithValues (missing : List EnumFillWithRequired) :
    Asking σ String (List (Nat × List (String × String))) :=
  missing.foldlM (fun results item => (fun mappings => results ++ [(item.actionIndex, mappings)])
    <$> collectReplacements levenshtein enumPromptFn item) []

def handleMissingEnumFillWith (baseline : List TableDef) (plan : MigrationPlan) :
    Asking σ String MigrationPlan :=
  let missing := findMissingEnumFillWith plan baseline
  if missing = [] then pure plan
  else applyEnumFillWithToPlan plan <$>
    collectEnumFillWithValues levenshtein enumPromptFn missing

end Replacements

/-! What one answer does to what is missing -/

section Missing
variable {lowercase : String → String} {baseline : List TableDef} {i : Nat}

theorem missing_added {table : String} {c : ColumnDef} {fillWith : Option String}
    {r : FillWithRequired} (asked : missingFillWithForAction lowercase baseline i
      (.addColumn table c fillWith) = some r) :
    r.key = (table, c.name) ∧ r.actionType = "AddColumn" ∧ r.hasForeignKey = false := by
  simp only [missingFillWithForAction] at asked
  split at asked
  · obtain rfl := Option.some.inj asked
    exact ⟨rfl, rfl, rfl⟩
  · cases asked

theorem missing_tightened {table column : String} {nullable : Bool} {fillWith : Option String}
    {deleteNullRows : Option Bool} {r : FillWithRequired}
    (asked : missingFillWithForAction lowercase baseline i
      (.modifyColumnNullable table column nullable fillWith deleteNullRows) = some r) :
    r.key = (table, column) ∧ r.actionType = "ModifyColumnNullable" := by
  simp only [missingFillWithForAction] at asked
  split at asked
  · split at asked
    · cases asked
    · split at asked <;>
      · obtain rfl := Option.some.inj asked
        exact ⟨rfl, rfl⟩
  · cases asked

theorem deleted_not_missing (table column : String) (nullable : Bool)
    (fillWith : Option String) : missingFillWithForAction lowercase baseline i
      (.modifyColumnNullable table column nullable fillWith (some true)) = none := by
  simp [missingFillWithForAction]

theorem filled_not_missing (table column value : String) (nullable : Bool)
    (deleteNullRows : Option Bool) : missingFillWithForAction lowercase baseline i
      (.modifyColumnNullable table column nullable (some value) deleteNullRows) = none := by
  simp [missingFillWithForAction]

theorem filter_kept {α : Type} {p : α → Bool} {o : Option α}
    (kept : ∀ x, o = some x → p x = true) : o.filter p = o := by
  cases o with
  | none => rfl
  | some x => simp [Option.filter, kept x rfl]

theorem filter_gone {α : Type} {p : α → Bool} {o : Option α}
    (gone : ∀ x, o = some x → p x = false) : o.filter p = none := by
  cases o with
  | none => rfl
  | some x => simp [Option.filter, gone x rfl]

theorem missing_filled (values : FillValues) (a : MigrationAction) :
    missingFillWithForAction lowercase baseline i (applyFillWith values a) =
      (missingFillWithForAction lowercase baseline i a).filter fun r => (values r.key).isNone := by
  cases a with
  | addColumn table c fillWith =>
    cases fillWith with
    | some value => simp [applyFillWith, missingFillWithForAction]
    | none =>
      cases given : values (table, c.name) with
      | none =>
        rw [applyFillWith, given, filter_kept]
        intro r asked
        simp [(missing_added asked).1, given]
      | some value =>
        rw [applyFillWith, given, filter_gone]
        · simp [missingFillWithForAction]
        · intro r asked
          simp [(missing_added asked).1, given]
  | modifyColumnNullable table column nullable fillWith deleteNullRows =>
    cases fillWith with
    | some value => simp [applyFillWith, missingFillWithForAction]
    | none =>
      cases given : values (table, column) with
      | none =>
        rw [applyFillWith, given, filter_kept]
        intro r asked
        simp [(missing_tightened asked).1, given]
      | some value =>
        rw [applyFillWith, given, filled_not_missing, filter_gone]
        intro r asked
        simp [(missing_tightened asked).1, given]
  | _ => rfl

def FillWithRequired.deletedBy (toDelete : List (String × String)) (r : FillWithRequired) : Bool :=
  r.actionType = "ModifyColumnNullable" && toDelete.any (· = r.key)

theorem missing_deleted (key : String × String) (a : MigrationAction) :
    missingFillWithForAction lowercase baseline i (stampDeleteNullRows key a) =
      (missingFillWithForAction lowercase baseline i a).filter fun r => !r.deletedBy [key] := by
  cases a with
  | addColumn table c fillWith =>
    rw [filter_kept]
    · rfl
    · intro r asked
      simp [FillWithRequired.deletedBy, (missing_added asked).2.1]
  | modifyColumnNullable table column nullable fillWith deleteNullRows =>
    rw [stampDeleteNullRows]
    by_cases here : table = key.1 ∧ column = key.2
    · rw [if_pos here, deleted_not_missing, filter_gone]
      intro r asked
      obtain ⟨named, kind⟩ := missing_tightened asked
      have same : key = r.key := by rw [named, here.1, here.2]
      simp [FillWithRequired.deletedBy, kind, same]
    · rw [if_neg here, filter_kept]
      intro r asked
      obtain ⟨named, kind⟩ := missing_tightened asked
      have apart : key ≠ r.key := by
        rintro rfl
        exact here ⟨by rw [named], by rw [named]⟩
      simp [FillWithRequired.deletedBy, apart]
  | _ => rfl

theorem tightened_no_addition (table column : String) (nullable : Bool)
    (fillWith : Option String) (deleteNullRows : Option Bool) :
    (missingFillWithForAction lowercase baseline i
      (.modifyColumnNullable table column nullable fillWith deleteNullRows)).filter
        (fun r => r.actionType = "AddColumn") = none := by
  refine filter_gone fun r asked => ?_
  simp [(missing_tightened asked).2]

/-- The flag of the command is for columns that lose their nullability. -/
theorem missing_flagged (deleteSet : String × String → Bool) (a : MigrationAction) :
    (missingFillWithForAction lowercase baseline i (applyDeleteNullRows deleteSet a)).filter
        (fun r => r.actionType = "AddColumn") =
      (missingFillWithForAction lowercase baseline i a).filter
        fun r => r.actionType = "AddColumn" := by
  cases a with
  | modifyColumnNullable table column nullable fillWith deleteNullRows =>
    rw [tightened_no_addition]
    unfold applyDeleteNullRows
    split <;> exact tightened_no_addition ..
  | _ => rfl

end Missing

/-! What the stage leaves missing -/

section Scans
variable {α : Type} {plan : MigrationPlan} {f : Nat → MigrationAction → Option α}

theorem scan_map (g : MigrationAction → MigrationAction) :
    scanActions { plan with actions := plan.actions.map g } f =
      scanActions plan fun i a => f i (g a) := by
  simp only [scanActions, List.zipIdx_map, List.filterMap_map]
  rfl

theorem scan_filter (p : α → Bool) :
    (scanActions plan f).filter p = scanActions plan fun i a => (f i a).filter p := by
  simp only [scanActions, List.filter_filterMap]

end Scans

section Stage
variable {lowercase : String → String} {baseline : List TableDef} {plan : MigrationPlan}

theorem plan_filled (values : FillValues) :
    findMissingFillWith lowercase (applyFillWithToPlan plan values) baseline =
      (findMissingFillWith lowercase plan baseline).filter fun r => (values r.key).isNone := by
  change scanActions _ (missingFillWithForAction lowercase baseline) =
    (scanActions _ (missingFillWithForAction lowercase baseline)).filter _
  rw [applyFillWithToPlan, scan_map, scan_filter]
  congr 1
  funext i a
  exact missing_filled values a

theorem plan_flagged (deleteSet : String × String → Bool) :
    (findMissingFillWith lowercase (applyDeleteNullRowsToPlan plan deleteSet) baseline).filter
        (fun r => r.actionType = "AddColumn") =
      (findMissingFillWith lowercase plan baseline).filter
        fun r => r.actionType = "AddColumn" := by
  change (scanActions _ (missingFillWithForAction lowercase baseline)).filter _ =
    (scanActions _ (missingFillWithForAction lowercase baseline)).filter _
  rw [applyDeleteNullRowsToPlan, scan_map, scan_filter, scan_filter]
  congr 1
  funext i a
  exact missing_flagged deleteSet a

theorem plan_deleted (toDelete : List (String × String)) :
    findMissingFillWith lowercase (deleteNullRowsOf toDelete plan) baseline =
      (findMissingFillWith lowercase plan baseline).filter fun r => !r.deletedBy toDelete := by
  induction toDelete generalizing plan with
  | nil => simp [deleteNullRowsOf, FillWithRequired.deletedBy]
  | cons key rest ih =>
    have first : findMissingFillWith lowercase
        { plan with actions := plan.actions.map (stampDeleteNullRows key) } baseline =
          (findMissingFillWith lowercase plan baseline).filter fun r => !r.deletedBy [key] := by
      change scanActions _ (missingFillWithForAction lowercase baseline) =
        (scanActions _ (missingFillWithForAction lowercase baseline)).filter _
      rw [scan_map, scan_filter]
      congr 1
      funext i a
      exact missing_deleted key a
    change findMissingFillWith lowercase (deleteNullRowsOf rest _) baseline = _
    rw [ih, first, List.filter_filter]
    refine List.filter_congr fun r _ => ?_
    by_cases tightened : r.actionType = "ModifyColumnNullable" <;>
      by_cases here : key = r.key <;>
        simp [FillWithRequired.deletedBy, tightened, here]

theorem missing_kind {r : FillWithRequired}
    (mem : r ∈ findMissingFillWith lowercase plan baseline) :
    (r.actionType = "AddColumn" ∧ r.hasForeignKey = false) ∨
      r.actionType = "ModifyColumnNullable" := by
  obtain ⟨i, a, _, asked⟩ := mem_scan.mp mem
  cases a with
  | addColumn table c fillWith => exact .inl (missing_added asked).2
  | modifyColumnNullable table column nullable fillWith deleteNullRows =>
    exact .inr (missing_tightened asked).2
  | _ => cases asked

theorem sort_missing_ends {deleteSet : String × String → Bool}
    {promptFn : String → String → Asking σ String Bool} {items : List FillWithRequired}
    {sorted : List (String × String) × List FillWithRequired}
    (ends : Ends (sortMissing deleteSet promptFn items) sorted) :
    (∀ item ∈ items, (item.key ∈ sorted.1 ∧
        (deleteSet item.key = true ∨ item.hasForeignKey = true)) ∨ item ∈ sorted.2) ∧
      ∀ item ∈ sorted.2, deleteSet item.key = false := by
  induction items generalizing sorted with
  | nil =>
    obtain rfl := pure_ends ends
    simp
  | cons item rest ih =>
    rw [sortMissing] at ends
    obtain ⟨delete, decided, ends⟩ := bind_ends ends
    obtain ⟨⟨toDelete, remaining⟩, later, ends⟩ := bind_ends ends
    obtain ⟨placed, spared⟩ := ih later
    have why : (delete = true → deleteSet item.key = true ∨ item.hasForeignKey = true) ∧
        (delete = false → deleteSet item.key = false) := by
      unfold deletesRows at decided
      split at decided
      · rename_i asked
        simp only [Bool.and_eq_true, Bool.not_eq_true'] at asked
        exact ⟨fun _ => .inr asked.1, fun _ => asked.2⟩
      · rw [pure_ends decided]
        exact ⟨.inl, id⟩
    have whole := pure_ends ends
    cases delete with
    | true =>
      rw [if_pos rfl] at whole
      subst whole
      refine ⟨List.forall_mem_cons.mpr ⟨.inl ⟨List.mem_cons_self, why.1 rfl⟩, ?_⟩, spared⟩
      intro other mem
      rcases placed other mem with ⟨deleted, reason⟩ | kept
      · exact .inl ⟨List.mem_cons_of_mem _ deleted, reason⟩
      · exact .inr kept
    | false =>
      rw [if_neg (by simp)] at whole
      subst whole
      refine ⟨List.forall_mem_cons.mpr ⟨.inr List.mem_cons_self, ?_⟩,
        List.forall_mem_cons.mpr ⟨why.2 rfl, spared⟩⟩
      intro other mem
      exact (placed other mem).imp_right (List.mem_cons_of_mem _)

theorem collect_ends {promptFn : String → String → String → Asking σ String String}
    {enumPromptFn : String → String → List String → Asking σ String String}
    {missing : List FillWithRequired} {values filled : FillValues}
    (ends : Ends (collectFillWithValues missing values promptFn enumPromptFn) filled)
    (key : String × String) :
    (filled key).isNone = true ↔
      (values key).isNone = true ∧ ∀ item ∈ missing, item.key ≠ key := by
  induction missing generalizing values with
  | nil =>
    obtain rfl := pure_ends ends
    simp
  | cons item rest ih =>
    rw [collectFillWithValues, List.foldlM_cons] at ends
    obtain ⟨next, first, later⟩ := bind_ends ends
    obtain ⟨value, _, rfl⟩ := map_ends first
    rw [ih later, List.forall_mem_cons]
    by_cases here : key = item.key
    · subst here
      simp [FillValues.insert]
    · simp [FillValues.insert, here, Ne.symm here]

theorem fill_stage_missing {fillWithArgs deleteNullRowsArgs : List String}
    {deletePromptFn : String → String → Asking σ String Bool}
    {promptFn : String → String → String → Asking σ String String}
    {enumPromptFn : String → String → List String → Asking σ String String}
    {filled : MigrationPlan}
    (ends : Ends (fillStage lowercase fillWithArgs deleteNullRowsArgs deletePromptFn promptFn
      enumPromptFn baseline plan) filled) :
    findMissingFillWith lowercase filled baseline =
      (findMissingFillWith lowercase plan baseline).filter fun r =>
        r.actionType = "AddColumn" && (parseDeleteNullRowsArgs deleteNullRowsArgs r.key &&
          (parseFillWithArgs fillWithArgs r.key).isNone) := by
  let values := parseFillWithArgs fillWithArgs
  let deleteSet := parseDeleteNullRowsArgs deleteNullRowsArgs
  let given := applyDeleteNullRowsToPlan (applyFillWithToPlan plan values) deleteSet
  have additions : (findMissingFillWith lowercase given baseline).filter
      (fun r => r.actionType = "AddColumn") =
        ((findMissingFillWith lowercase plan baseline).filter
          fun r => (values r.key).isNone).filter fun r => r.actionType = "AddColumn" := by
    rw [plan_flagged, plan_filled]
  have unfilled : ∀ r ∈ findMissingFillWith lowercase given baseline,
      r.actionType = "AddColumn" → (values r.key).isNone = true := by
    intro r mem added
    have kept : r ∈ (findMissingFillWith lowercase given baseline).filter
        (fun r => r.actionType = "AddColumn") := List.mem_filter.mpr ⟨mem, by simpa using added⟩
    rw [additions] at kept
    exact (List.mem_filter.mp (List.mem_filter.mp kept).1).2
  suffices left : findMissingFillWith lowercase filled baseline =
      (findMissingFillWith lowercase given baseline).filter fun r =>
        r.actionType = "AddColumn" && deleteSet r.key by
    rw [left, ← List.filter_filter, List.filter_comm, additions, List.filter_filter,
      List.filter_filter]
    refine List.filter_congr fun r _ => ?_
    change _ = (decide (r.actionType = "AddColumn") && (deleteSet r.key && (values r.key).isNone))
    cases deleteSet r.key <;> cases (values r.key).isNone <;>
      cases decide (r.actionType = "AddColumn") <;> rfl
  change Ends (if findMissingFillWith lowercase given baseline = [] then pure given else _)
    filled at ends
  split at ends
  · rename_i none_missing
    rw [pure_ends ends, none_missing]
    rfl
  obtain ⟨⟨plan', remaining⟩, handled, ends⟩ := bind_ends ends
  obtain ⟨sorted, sorts, same⟩ := map_ends handled
  obtain ⟨rfl, rfl⟩ := Prod.mk.inj same
  obtain ⟨placed, spared⟩ := sort_missing_ends sorts
  -- a tightened column that is not deleted remains, and so does no key of the command
  have deleted : ∀ r ∈ findMissingFillWith lowercase given baseline, r ∉ sorted.2 →
      (!r.deletedBy sorted.1) = (decide (r.actionType = "AddColumn") && deleteSet r.key) := by
    intro r mem gone
    obtain ⟨listed, reason⟩ := (placed r mem).resolve_right gone
    rcases missing_kind mem with ⟨added, free⟩ | tightened
    · have flagged : deleteSet r.key = true := reason.resolve_right (by simp [free])
      simp [FillWithRequired.deletedBy, added, flagged]
    · have found : sorted.1.any (fun key => decide (key = r.key)) = true :=
        List.any_eq_true.mpr ⟨r.key, listed, by simp⟩
      simp [FillWithRequired.deletedBy, tightened, found]
  change Ends (if sorted.2 = [] then pure (deleteNullRowsOf sorted.1 given) else _) filled at ends
  split at ends
  · rename_i none_left
    rw [pure_ends ends, plan_deleted]
    refine List.filter_congr fun r mem => deleted r mem ?_
    rw [none_left]
    exact List.not_mem_nil
  · obtain ⟨collected, collects, rfl⟩ := map_ends ends
    rw [plan_filled, plan_deleted, List.filter_filter]
    refine List.filter_congr fun r mem => ?_
    by_cases kept : r ∈ sorted.2
    · have answered : (collected r.key).isNone = false := by
        rw [Bool.eq_false_iff]
        exact fun none_there => ((collect_ends collects r.key).mp none_there).2 r kept rfl
      have off : deleteSet r.key = false := spared r kept
      simp [answered, off]
    · rw [← deleted r mem kept]
      rcases missing_kind mem with ⟨added, free⟩ | tightened
      · have flagged : deleteSet r.key = true :=
          ((placed r mem).resolve_right kept).2.resolve_right (by simp [free])
        have untouched : (collected r.key).isNone = true := by
          refine (collect_ends collects r.key).mpr ⟨unfilled r mem added, ?_⟩
          intro item left same
          have off : deleteSet r.key = false := same ▸ spared item left
          exact Bool.false_ne_true (off.symm.trans flagged)
        simp [untouched]
      · have found : sorted.1.any (fun key => decide (key = r.key)) = true :=
          List.any_eq_true.mpr ⟨r.key, ((placed r mem).resolve_right kept).1, by simp⟩
        simp [FillWithRequired.deletedBy, tightened, found]

end Stage

/-! What the replacements leave uncovered -/

theorem extend_covers {existing mappings : List (String × String)} {k : String} :
    (∃ p ∈ extendMappings existing mappings, p.1 = k) ↔
      (∃ p ∈ existing, p.1 = k) ∨ ∃ p ∈ mappings, p.1 = k := by
  have keyed : k ∈ (extendMappings existing mappings).map Prod.fst ↔
      ∃ p ∈ existing ++ mappings, p.1 = k := by
    rw [extendMappings, KeyedView.map_key_entries, KeyedView.mem_keys]
  rw [List.mem_map] at keyed
  rw [keyed]
  simp only [List.mem_append, or_and_right, exists_or]

section Replaced
variable {levenshtein : String → String → Nat}
  {enumPromptFn : EnumFillWithRequired → String → Option String → List String →
    Asking σ String String}

theorem replacements_cover {item : EnumFillWithRequired} {mappings : List (String × String)}
    (ends : Ends (collectReplacements levenshtein enumPromptFn item) mappings) :
    ∀ r ∈ item.removedValues, ∃ p ∈ mappings, p.1 = r := by
  have run : ∀ {removed : List String} {start : List (String × String)},
      Ends (removed.foldlM (fun mappings removed =>
        (fun value => extendMappings mappings [(removed, value)]) <$>
          askReplacement levenshtein enumPromptFn item removed) start) mappings →
        ∀ k, (∃ p ∈ start, p.1 = k) ∨ k ∈ removed → ∃ p ∈ mappings, p.1 = k := by
    intro removed
    induction removed with
    | nil =>
      intro start ends k covered
      rw [pure_ends ends]
      exact covered.resolve_right List.not_mem_nil
    | cons r rest ih =>
      intro start ends k covered
      rw [List.foldlM_cons] at ends
      obtain ⟨next, first, later⟩ := bind_ends ends
      obtain ⟨value, _, rfl⟩ := map_ends first
      refine ih later k ?_
      rw [extend_covers]
      rcases covered with before | listed
      · exact .inl (.inl before)
      · rcases List.mem_cons.mp listed with rfl | after
        · exact .inl (.inr ⟨(k, value), List.mem_singleton_self _, rfl⟩)
        · exact .inr after
  exact fun r mem => run ends r (.inr mem)

theorem fold_concat {α β : Type} (f : α → β) (xs : List α) (start : List β) :
    xs.foldl (fun results x => results ++ [f x]) start = start ++ xs.map f := by
  induction xs generalizing start with
  | nil => simp
  | cons x rest ih => simp [ih]

theorem collected_covers {missing : List EnumFillWithRequired}
    {collected : List (Nat × List (String × String))}
    (ends : Ends (collectEnumFillWithValues levenshtein enumPromptFn missing) collected) :
    collected.map Prod.fst = missing.map (·.actionIndex) ∧
      ∀ item ∈ missing, ∃ mappings, (item.actionIndex, mappings) ∈ collected ∧
        ∀ r ∈ item.removedValues, ∃ p ∈ mappings, p.1 = r := by
  unfold collectEnumFillWithValues at ends
  obtain ⟨answers, each, rfl⟩ := fold_answers ends
  rw [fold_concat fun p : EnumFillWithRequired × List (String × String) => (p.1.actionIndex, p.2)]
  clear ends
  induction each with
  | nil => simp
  | cons asked _ ih =>
    obtain ⟨indices, covered⟩ := ih
    simp only [List.zip_cons_cons, List.map_cons, List.nil_append, List.forall_mem_cons] at *
    refine ⟨by rw [indices], ⟨_, List.mem_cons_self, replacements_cover asked⟩, ?_⟩
    intro item mem
    obtain ⟨mappings, listed, covers⟩ := covered item mem
    exact ⟨mappings, List.mem_cons_of_mem _ listed, covers⟩

theorem replaced_not_missing {baseline : List TableDef} {i : Nat} {a : MigrationAction}
    {item : EnumFillWithRequired}
    (asked : missingEnumFillWithForAction baseline i a = some item)
    {mappings : List (String × String)}
    (covers : ∀ r ∈ item.removedValues, ∃ p ∈ mappings, p.1 = r) :
    missingEnumFillWithForAction baseline i (stampEnumFill mappings a) = none := by
  cases a with
  | modifyColumnType table column newType fillWith narrowing timezone =>
    simp only [stampEnumFill, missingEnumFillWithForAction] at asked ⊢
    split at asked
    · rename_i oldValues _ newValues _
      split at asked
      · cases asked
      obtain rfl := Option.some.inj asked
      rw [if_pos]
      rw [List.filter_eq_nil_iff]
      intro r removed
      rw [Option.getD_some, List.all_eq_true]
      intro uncovered
      have absent : ∀ p ∈ fillWith.elim mappings (extendMappings · mappings), p.1 ≠ r :=
        fun p mem => of_decide_eq_true (uncovered p mem)
      have still : r ∈ (oldValues.filter (· ∉ newValues)).filter
          fun r => (fillWith.getD []).all (·.1 ≠ r) := by
        refine List.mem_filter.mpr ⟨removed, List.all_eq_true.mpr fun p mem => ?_⟩
        cases fillWith with
        | none => cases mem
        | some existing =>
          have kept : ∃ q ∈ extendMappings existing mappings, q.1 = p.1 :=
            extend_covers.mpr (.inl ⟨p, mem, rfl⟩)
          obtain ⟨q, listed, same⟩ := kept
          exact decide_eq_true (same ▸ absent q listed)
      obtain ⟨p, mem, same⟩ := covers r still
      cases fillWith with
      | none => exact absent p mem same
      | some existing =>
        have added : ∃ q ∈ extendMappings existing mappings, q.1 = r :=
          extend_covers.mpr (.inr ⟨p, mem, same⟩)
        obtain ⟨q, listed, there⟩ := added
        exact absent q listed there
    · cases asked
  | _ => cases asked

theorem enum_missing_entry {baseline : List TableDef} {i : Nat} {a : MigrationAction}
    {item : EnumFillWithRequired}
    (asked : missingEnumFillWithForAction baseline i a = some item) : item.actionIndex = i := by
  cases a with
  | modifyColumnType table column newType fillWith narrowing timezone =>
    simp only [missingEnumFillWithForAction] at asked
    split at asked
    · split at asked
      · cases asked
      · rw [← Option.some.inj asked]
    · cases asked
  | _ => cases asked

theorem enum_stage_missing {baseline : List TableDef} {plan filled : MigrationPlan}
    (ends : Ends (handleMissingEnumFillWith levenshtein enumPromptFn baseline plan) filled) :
    findMissingEnumFillWith filled baseline = [] := by
  unfold handleMissingEnumFillWith at ends
  simp only at ends
  split at ends
  · rename_i none_missing
    rw [pure_ends ends, none_missing]
  obtain ⟨collected, collects, rfl⟩ := map_ends ends
  obtain ⟨indices, covered⟩ := collected_covers collects
  have ascending : ((findMissingEnumFillWith plan baseline).map (·.actionIndex)).Pairwise
      (· < ·) := scan_ascending enum_missing_entry
  have positions : (collected.map fun p => (p.1, stampEnumFill p.2)).map Prod.fst =
      (findMissingEnumFillWith plan baseline).map (·.actionIndex) := by
    rw [← indices, List.map_map]
    rfl
  have apart : ((collected.map fun p => (p.1, stampEnumFill p.2)).map Prod.fst).Nodup :=
    positions ▸ ascending.imp Nat.ne_of_lt
  rw [List.eq_nil_iff_forall_not_mem]
  intro w still
  obtain ⟨i, a', there, asked'⟩ := mem_scan.mp still
  rw [applyEnumFillWithToPlan, MigrationPlan.edit, Edits.get_run, Option.map_eq_some_iff] at there
  obtain ⟨a, here, rfl⟩ := there
  cases asked : missingEnumFillWithForAction baseline i a with
  | none =>
    have untouched : ∀ e ∈ collected.map fun p => (p.1, stampEnumFill p.2), e.1 ≠ i := by
      intro e mem same
      have listed := List.mem_map_of_mem (f := Prod.fst) mem
      rw [positions] at listed
      obtain ⟨item, in_missing, at_e⟩ := List.mem_map.mp listed
      obtain ⟨j, b, found, asked_b⟩ :=
        mem_scan.mp in_missing
      obtain rfl : j = i := (enum_missing_entry asked_b).symm.trans (at_e.trans same)
      obtain rfl := Option.some.inj (found.symm.trans here)
      rw [asked] at asked_b
      cases asked_b
    rw [Edits.at_untouched untouched, asked] at asked'
    cases asked'
  | some item =>
    have in_missing : item ∈ findMissingEnumFillWith plan baseline :=
      mem_scan.mpr ⟨i, a, here, asked⟩
    obtain ⟨mappings, listed, covers⟩ := covered item in_missing
    obtain rfl := enum_missing_entry asked
    have edit : (item.actionIndex, stampEnumFill mappings) ∈
        collected.map fun p => (p.1, stampEnumFill p.2) :=
      List.mem_map.mpr ⟨_, listed, rfl⟩
    rw [Edits.at_only apart edit, replaced_not_missing asked covers] at asked'
    cases asked'

end Replaced

end Vespertide
