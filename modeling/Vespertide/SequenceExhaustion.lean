import Mathlib
import Vespertide.Action
import Vespertide.Normalizable
import Vespertide.Support.Results

/-!
The sequences a plan may exhaust. The scan reads the auto-increment key of a created
table at the table level only, and an inline `primary_key: false` counts as a key for
it, so a table as declared may show less, or another key, than the normalised one.
-/
namespace Vespertide
open AppendMissing

local instance lawful_sequence_columns : LawfulBEq (String × String) := inferInstance

inductive SequenceExhaustionKind where
  | primary
  | pkTypeNarrowing (fromType : SimpleColumnType)
  | foreignKeyMismatch (parentTable : String) (parentType : SimpleColumnType)
  deriving DecidableEq, Repr

inductive SequenceRiskLevel where
  | high | medium
  deriving DecidableEq, Repr

structure SequenceExhaustionWarning where
  actionIndex : Nat
  table : String
  column : String
  currentType : SimpleColumnType
  recommendedType : SimpleColumnType
  riskLevel : SequenceRiskLevel
  kind : SequenceExhaustionKind
  deriving DecidableEq, Repr

/-! Integer types -/

def simpleIntTypeOf : ColumnType → Option SimpleColumnType
  | .simple .smallInt => some .smallInt
  | .simple .integer => some .integer
  | .simple .bigInt => some .bigInt
  | _ => none

def isRiskyIntType : SimpleColumnType → Bool
  | .smallInt | .integer => true
  | _ => false

def classifyRiskyIntType : SimpleColumnType → Option (SimpleColumnType × SequenceRiskLevel)
  | .smallInt => some (.smallInt, .high)
  | .integer => some (.integer, .medium)
  | _ => none

def SimpleColumnType.rank : SimpleColumnType → Nat
  | .smallInt => 0
  | .integer => 1
  | .bigInt => 2
  | _ => 3

def isNarrowerThan (child parent : SimpleColumnType) : Bool := child.rank < parent.rank

def intTypeIn (columns : List ColumnDef) (column : String) : Option SimpleColumnType :=
  (columns.find? (·.name = column)).bind fun c => simpleIntTypeOf c.type

/-! Keys -/

def TableConstraint.keyColumns : TableConstraint → Option (List String)
  | .primaryKey _ columns _ => some columns
  | _ => none

/-- The columns of the key at the table level, else those with any `primary_key`. -/
def pkColumns (columns : List ColumnDef) (constraints : List TableConstraint) : List String :=
  match constraints.findSome? (·.keyColumns) with
  | some cols => cols
  | none => (columns.filter (·.primaryKey.isSome)).map (·.name)

def singleKeyWithType (columns : List ColumnDef) : List String → Option (String × SimpleColumnType)
  | [column] => (intTypeIn columns column).map (column, ·)
  | _ => none

def singlePkColumnWithType (t : TableDef) : Option (String × SimpleColumnType) :=
  singleKeyWithType t.columns (pkColumns t.columns t.constraints)

def riskySinglePkColumns (t : TableDef) : List (String × SimpleColumnType) :=
  match singlePkColumnWithType t with
  | none => []
  | some (column, ty) => if isRiskyIntType ty then [(column, ty)] else []

def singlePkTypeFromCreateTable (columns : List ColumnDef) (constraints : List TableConstraint) :
    Option SimpleColumnType :=
  (singleKeyWithType columns (pkColumns columns constraints)).map (·.2)

def TableConstraint.autoIncrementColumn : TableConstraint → Option String
  | .primaryKey true [column] _ => some column
  | _ => none

def singlePkWithAutoIncrement (columns : List ColumnDef) (constraints : List TableConstraint) :
    Option (String × SimpleColumnType) :=
  match constraints.findSome? (·.autoIncrementColumn) with
  | some column => (intTypeIn columns column).map (column, ·)
  | none => none

def isSinglePkColumn (t : TableDef) (column : String) : Bool :=
  pkColumns t.columns t.constraints = [column]

def inlineFkParentTable (c : ColumnDef) : Option String :=
  match c.foreignKey with
  | none => none
  | some (.string s) => (Text.splitOnce '.' s.toList).map (String.ofList ·.1)
  | some (.reference r) => (Text.splitOnce '.' r.references.toList).map (String.ofList ·.1)
  | some (.object o) => some o.refTable

/-! The scan -/

/-- The key types by table, the newest entry first. -/
abbrev PkTypeMap := List (String × SimpleColumnType)

def PkTypeMap.insert (m : PkTypeMap) : Option (String × SimpleColumnType) → PkTypeMap
  | none => m
  | some entry => entry :: m

def tableKeyType (t : TableDef) : Option (String × SimpleColumnType) :=
  (singlePkColumnWithType t).map fun (_, ty) => (t.name, ty)

def createdKeyType : MigrationAction → Option (String × SimpleColumnType)
  | .createTable table columns constraints =>
      (singlePkTypeFromCreateTable columns constraints).map (table, ·)
  | _ => none

def pkTypeMap (baseline : List TableDef) (actions : List MigrationAction) : PkTypeMap :=
  actions.foldl (fun m a => m.insert (createdKeyType a))
    (baseline.foldl (fun m t => m.insert (tableKeyType t)) [])

def baselineExistingRiskyPk (baseline : List TableDef) : List (String × String) :=
  baseline.flatMap fun t => (riskySinglePkColumns t).map fun (column, _) => (t.name, column)

def baselineIntType (baseline : List TableDef) (table column : String) : Option SimpleColumnType :=
  (baseline.find? (·.name = table)).bind fun t => intTypeIn t.columns column

def riskAt (idx : Nat) (table column : String) (ty : SimpleColumnType)
    (kind : SequenceExhaustionKind) : List SequenceExhaustionWarning :=
  match classifyRiskyIntType ty with
  | none => []
  | some (current, risk) => [⟨idx, table, column, current, .bigInt, risk, kind⟩]

def mismatchAt (m : PkTypeMap) (idx : Nat) (table column parent : String)
    (childTy : Option SimpleColumnType) : List SequenceExhaustionWarning :=
  match m.lookup parent, childTy with
  | some parentTy, some ty =>
      if isNarrowerThan ty parentTy then
        riskAt idx table column ty (.foreignKeyMismatch parent parentTy)
      else []
  | _, _ => []

def sequenceRisks (baseline : List TableDef) (m : PkTypeMap) (idx : Nat) :
    MigrationAction → List SequenceExhaustionWarning
  | .createTable table columns constraints =>
      (match singlePkWithAutoIncrement columns constraints with
        | some (column, ty) => riskAt idx table column ty .primary
        | none => []) ++
      columns.flatMap fun c =>
        match inlineFkParentTable c with
        | some parent => mismatchAt m idx table c.name parent (simpleIntTypeOf c.type)
        | none => []
  | .addConstraint table (.primaryKey true [column] _) =>
      if (table, column) ∈ baselineExistingRiskyPk baseline then []
      else match baselineIntType baseline table column with
        | some ty => riskAt idx table column ty .primary
        | none => []
  | .addConstraint table (.foreignKey _ [column] refTable _ _ _ _) =>
      mismatchAt m idx table column refTable (baselineIntType baseline table column)
  | .modifyColumnType table column newType _ _ _ =>
      match baseline.find? (·.name = table) with
      | none => []
      | some t =>
          match intTypeIn t.columns column, simpleIntTypeOf newType with
          | some fromTy, some toTy =>
              if fromTy ≠ .bigInt ∨ ¬ isRiskyIntType toTy then []
              else if isSinglePkColumn t column then
                riskAt idx table column toTy (.pkTypeNarrowing .bigInt)
              else []
          | _, _ => []
  | _ => []

def findSequenceExhaustionRisks (plan : MigrationPlan) (baseline : List TableDef) :
    List SequenceExhaustionWarning :=
  let m := pkTypeMap baseline plan.actions
  plan.actions.zipIdx.flatMap fun (a, idx) => sequenceRisks baseline m idx a

/-! What the scan warns of, action by action -/

def warningSite (w : SequenceExhaustionWarning) : String × String × SequenceExhaustionKind :=
  (w.table, w.column, w.kind)

/-- The auto-increment key at risk that an action shows at the table level. -/
def tableSequence (baseline : List TableDef) : MigrationAction → Option (String × String)
  | .createTable table columns constraints =>
      match singlePkWithAutoIncrement columns constraints with
      | some (column, ty) => if isRiskyIntType ty then some (table, column) else none
      | none => none
  | .addConstraint table (.primaryKey true [column] _) =>
      if (table, column) ∈ baselineExistingRiskyPk baseline then none
      else if (baselineIntType baseline table column).any isRiskyIntType then some (table, column)
      else none
  | _ => none

/-- The auto-increment key at risk that only the columns of a created table declare. -/
def inlineSequence : MigrationAction → Option (String × String)
  | .createTable table columns constraints =>
      if hasPrimaryKeyConstraint constraints then none
      else match collectPrimaryKeyColumns columns with
        | ([column], true) =>
            if (intTypeIn columns column).any isRiskyIntType then some (table, column) else none
        | _ => none
  | _ => none

/-- A column at risk with the parent table it references. -/
structure KeyReference where
  table : String
  column : String
  parent : String
  childType : SimpleColumnType
  deriving DecidableEq, Repr

def riskyReference (table column parent : String) (childTy : Option SimpleColumnType) :
    Option KeyReference :=
  (childTy.filter isRiskyIntType).map (⟨table, column, parent, ·⟩)

def keyReferences (baseline : List TableDef) : MigrationAction → List KeyReference
  | .createTable table columns _ =>
      columns.filterMap fun c => (inlineFkParentTable c).bind fun parent =>
        riskyReference table c.name parent (simpleIntTypeOf c.type)
  | .addConstraint table (.foreignKey _ [column] refTable _ _ _ _) =>
      (riskyReference table column refTable (baselineIntType baseline table column)).toList
  | _ => []

def keyNarrowing (baseline : List TableDef) : MigrationAction → Option (String × String)
  | .modifyColumnType table column newType _ _ _ =>
      match baseline.find? (·.name = table) with
      | none => none
      | some t =>
          if intTypeIn t.columns column = some .bigInt ∧
              (simpleIntTypeOf newType).any isRiskyIntType ∧ isSinglePkColumn t column then
            some (table, column)
          else none
  | _ => none

/-- The warnings of one action, by what they read. -/
inductive Warns (baseline : List TableDef) (m : PkTypeMap) (a : MigrationAction) :
    String × String × SequenceExhaustionKind → Prop
  | key {table column : String} (shown : tableSequence baseline a = some (table, column)) :
      Warns baseline m a (table, column, .primary)
  | narrowing {table column : String} (narrowed : keyNarrowing baseline a = some (table, column)) :
      Warns baseline m a (table, column, .pkTypeNarrowing .bigInt)
  | reference {r : KeyReference} {parentTy : SimpleColumnType}
      (made : r ∈ keyReferences baseline a) (typed : m.lookup r.parent = some parentTy)
      (narrower : isNarrowerThan r.childType parentTy = true) :
      Warns baseline m a (r.table, r.column, .foreignKeyMismatch r.parent parentTy)

variable {baseline : List TableDef} {m : PkTypeMap} {idx : Nat} {table column parent : String}

theorem mem_risk {ty : SimpleColumnType} {kind : SequenceExhaustionKind}
    {site : String × String × SequenceExhaustionKind} :
    site ∈ (riskAt idx table column ty kind).map warningSite ↔
      isRiskyIntType ty = true ∧ site = (table, column, kind) := by
  cases ty <;> simp [riskAt, classifyRiskyIntType, isRiskyIntType, warningSite]

theorem mem_mismatch {childTy : Option SimpleColumnType}
    {site : String × String × SequenceExhaustionKind} :
    site ∈ (mismatchAt m idx table column parent childTy).map warningSite ↔
      ∃ r ∈ riskyReference table column parent childTy, ∃ parentTy,
        m.lookup r.parent = some parentTy ∧ isNarrowerThan r.childType parentTy = true ∧
        site = (r.table, r.column, .foreignKeyMismatch r.parent parentTy) := by
  cases childTy with
  | none => cases found : m.lookup parent <;> simp [mismatchAt, riskyReference, found]
  | some ty =>
    cases found : m.lookup parent with
    | none => simp [mismatchAt, riskyReference, found, Option.filter]
    | some parentTy =>
      cases narrower : isNarrowerThan ty parentTy with
      | false => simp [mismatchAt, riskyReference, found, Option.filter, narrower]
      | true =>
        simp only [mismatchAt, found, narrower, if_true, mem_risk]
        cases risky : isRiskyIntType ty <;>
          simp [riskyReference, Option.filter, risky, found, narrower]

theorem create_warns_iff {columns : List ColumnDef} {constraints : List TableConstraint}
    {site : String × String × SequenceExhaustionKind} :
    site ∈ (sequenceRisks baseline m idx (.createTable table columns constraints)).map
        warningSite ↔
      Warns baseline m (.createTable table columns constraints) site := by
  simp only [sequenceRisks, List.map_append, List.mem_append, List.map_flatMap, List.mem_flatMap]
  constructor
  · rintro (key | ⟨c, mem, mismatch⟩)
    · cases found : singlePkWithAutoIncrement columns constraints with
      | none => simp [found] at key
      | some pk =>
        simp only [found] at key
        obtain ⟨risky, rfl⟩ := mem_risk.mp key
        exact .key (by simp [tableSequence, found, risky])
    · cases refers : inlineFkParentTable c with
      | none => simp [refers] at mismatch
      | some parent =>
        simp only [refers] at mismatch
        obtain ⟨r, made, parentTy, typed, narrower, rfl⟩ := mem_mismatch.mp mismatch
        refine .reference (List.mem_filterMap.mpr ⟨c, mem, ?_⟩) typed narrower
        simpa [refers] using made
  · intro warns
    cases warns with
    | key shown =>
      cases found : singlePkWithAutoIncrement columns constraints with
      | none => simp [tableSequence, found] at shown
      | some pk =>
        simp only [tableSequence, found, Option.ite_none_right_eq_some, Option.some.injEq,
          Prod.mk.injEq] at shown
        obtain ⟨risky, rfl, rfl⟩ := shown
        exact .inl (mem_risk.mpr ⟨risky, rfl⟩)
    | narrowing narrowed => simp [keyNarrowing] at narrowed
    | reference made typed narrower =>
      obtain ⟨c, mem, here⟩ := List.mem_filterMap.mp made
      obtain ⟨parent, refers, risky⟩ := Option.bind_eq_some_iff.mp here
      refine .inr ⟨c, mem, ?_⟩
      simp only [refers]
      exact mem_mismatch.mpr ⟨_, risky, _, typed, narrower, rfl⟩

theorem added_key_warns_iff {strategy : PrimaryKeyAdditionStrategy}
    {site : String × String × SequenceExhaustionKind} :
    site ∈ (sequenceRisks baseline m idx
        (.addConstraint table (.primaryKey true [column] strategy))).map warningSite ↔
      Warns baseline m (.addConstraint table (.primaryKey true [column] strategy)) site := by
  simp only [sequenceRisks]
  constructor
  · intro warned
    split at warned
    · simp at warned
    · rename_i fresh
      cases found : baselineIntType baseline table column with
      | none => simp [found] at warned
      | some ty =>
        simp only [found] at warned
        obtain ⟨risky, rfl⟩ := mem_risk.mp warned
        exact .key (by simp [tableSequence, fresh, found, risky])
  · intro warns
    cases warns with
    | key shown =>
      simp only [tableSequence, Option.ite_none_left_eq_some, Option.ite_none_right_eq_some,
        Option.any_eq_true, Option.some.injEq, Prod.mk.injEq] at shown
      obtain ⟨fresh, ⟨ty, found, risky⟩, rfl, rfl⟩ := shown
      simp only [fresh, if_false, found]
      exact mem_risk.mpr ⟨risky, rfl⟩
    | narrowing narrowed => simp [keyNarrowing] at narrowed
    | reference made => simp [keyReferences] at made

theorem added_reference_warns_iff {name : Option String} {refTable : String}
    {refColumns : List String} {onDelete onUpdate : Option ReferenceAction}
    {strategy : ForeignKeyOrphanStrategy} {site : String × String × SequenceExhaustionKind} :
    site ∈ (sequenceRisks baseline m idx (.addConstraint table
        (.foreignKey name [column] refTable refColumns onDelete onUpdate strategy))).map
        warningSite ↔
      Warns baseline m (.addConstraint table
        (.foreignKey name [column] refTable refColumns onDelete onUpdate strategy)) site := by
  simp only [sequenceRisks, mem_mismatch]
  constructor
  · rintro ⟨r, made, parentTy, typed, narrower, rfl⟩
    exact .reference (Option.mem_toList.mpr made) typed narrower
  · intro warns
    cases warns with
    | key shown => simp [tableSequence] at shown
    | narrowing narrowed => simp [keyNarrowing] at narrowed
    | reference made typed narrower =>
      exact ⟨_, Option.mem_toList.mp made, _, typed, narrower, rfl⟩

theorem narrowing_warns_iff {newType : ColumnType} {fillWith : Option (List (String × String))}
    {strategy : Option NarrowingStrategy} {timezone : Option String}
    {site : String × String × SequenceExhaustionKind} :
    site ∈ (sequenceRisks baseline m idx
        (.modifyColumnType table column newType fillWith strategy timezone)).map warningSite ↔
      Warns baseline m (.modifyColumnType table column newType fillWith strategy timezone)
        site := by
  constructor
  · intro warned
    simp only [sequenceRisks] at warned
    cases found : baseline.find? (·.name = table) with
    | none => simp [found] at warned
    | some t =>
      simp only [found] at warned
      split at warned
      · rename_i fromTy toTy old new
        split at warned
        · simp at warned
        · rename_i narrows
          push Not at narrows
          obtain ⟨rfl, risky⟩ := narrows
          split at warned
          · rename_i single
            obtain ⟨_, rfl⟩ := mem_risk.mp warned
            exact .narrowing (by simp [keyNarrowing, found, old, new, risky, single])
          · simp at warned
      · simp at warned
  · intro warns
    cases warns with
    | key shown => simp [tableSequence] at shown
    | narrowing narrowed =>
      cases found : baseline.find? (·.name = table) with
      | none => simp [keyNarrowing, found] at narrowed
      | some t =>
        simp only [keyNarrowing, found, Option.ite_none_right_eq_some, Option.any_eq_true,
          Option.some.injEq, Prod.mk.injEq] at narrowed
        obtain ⟨⟨old, ⟨toTy, new, risky⟩, single⟩, rfl, rfl⟩ := narrowed
        simp only [sequenceRisks, found, old, new, risky, single, ne_eq, not_true_eq_false,
          or_self, if_false, if_true]
        exact mem_risk.mpr ⟨risky, rfl⟩
    | reference made => simp [keyReferences] at made

theorem warns_iff {a : MigrationAction} {site : String × String × SequenceExhaustionKind} :
    site ∈ (sequenceRisks baseline m idx a).map warningSite ↔ Warns baseline m a site := by
  have silent (unread : sequenceRisks baseline m idx a = [] ∧ tableSequence baseline a = none ∧
      keyNarrowing baseline a = none ∧ keyReferences baseline a = []) :
      site ∈ (sequenceRisks baseline m idx a).map warningSite ↔ Warns baseline m a site := by
    obtain ⟨no_risk, no_key, no_narrowing, no_reference⟩ := unread
    refine iff_of_false (by simp [no_risk]) fun warns => ?_
    cases warns with
    | key shown => simp [no_key] at shown
    | narrowing narrowed => simp [no_narrowing] at narrowed
    | reference made => simp [no_reference] at made
  cases a with
  | createTable table columns constraints => exact create_warns_iff
  | addConstraint table constraint =>
    -- the two arms read constraints of exactly one column
    match constraint with
    | .primaryKey true [column] strategy => exact added_key_warns_iff
    | .foreignKey name [column] refTable refColumns onDelete onUpdate strategy =>
      exact added_reference_warns_iff
    | .primaryKey false columns _ => exact silent ⟨rfl, rfl, rfl, rfl⟩
    | .primaryKey true [] _ => exact silent ⟨rfl, rfl, rfl, rfl⟩
    | .primaryKey true (_ :: _ :: _) _ => exact silent ⟨rfl, rfl, rfl, rfl⟩
    | .foreignKey _ [] _ _ _ _ _ => exact silent ⟨rfl, rfl, rfl, rfl⟩
    | .foreignKey _ (_ :: _ :: _) _ _ _ _ _ => exact silent ⟨rfl, rfl, rfl, rfl⟩
    | .unique _ _ _ => exact silent ⟨rfl, rfl, rfl, rfl⟩
    | .check _ _ _ => exact silent ⟨rfl, rfl, rfl, rfl⟩
    | .index _ _ => exact silent ⟨rfl, rfl, rfl, rfl⟩
  | modifyColumnType table column newType fillWith strategy timezone => exact narrowing_warns_iff
  | _ => exact silent ⟨rfl, rfl, rfl, rfl⟩

theorem mem_warnings_iff {plan : MigrationPlan} {site : String × String × SequenceExhaustionKind} :
    site ∈ (findSequenceExhaustionRisks plan baseline).map warningSite ↔
      ∃ a ∈ plan.actions, Warns baseline (pkTypeMap baseline plan.actions) a site := by
  simp only [findSequenceExhaustionRisks, List.map_flatMap, List.mem_flatMap, warns_iff]
  constructor
  · rintro ⟨⟨a, idx⟩, mem, warns⟩
    exact ⟨a, List.fst_mem_of_mem_zipIdx mem, warns⟩
  · rintro ⟨a, mem, warns⟩
    rw [← List.zipIdx_map_fst 0 plan.actions] at mem
    obtain ⟨numbered, here, rfl⟩ := List.mem_map.mp mem
    exact ⟨numbered, here, warns⟩

/-! The key type of a parent -/

/-- The type of the last single-column integer key of the tables called `parent`, where
    `read` tells the key of a created one. -/
def parentKeyType (read : MigrationAction → Option (String × SimpleColumnType))
    (baseline : List TableDef) (actions : List MigrationAction) (parent : String) :
    Option SimpleColumnType :=
  (((baseline.filterMap tableKeyType ++ actions.filterMap read).filter (·.1 = parent)).getLast?).map
    (·.2)

theorem foldl_insert {α : Type} (read : α → Option (String × SimpleColumnType)) (items : List α)
    (m : PkTypeMap) :
    items.foldl (fun m x => m.insert (read x)) m = (items.filterMap read).reverse ++ m := by
  induction items generalizing m with
  | nil => rfl
  | cons x items ih =>
    rw [List.foldl_cons, ih]
    cases found : read x <;> simp [PkTypeMap.insert, found]

theorem lookup_eq_head_filter (m : PkTypeMap) (parent : String) :
    m.lookup parent = ((m.filter (·.1 = parent)).head?).map (·.2) := by
  induction m with
  | nil => rfl
  | cons entry m ih =>
    obtain ⟨key, ty⟩ := entry
    rw [List.filter_cons, List.lookup_cons]
    by_cases own : parent = key
    · simp [own]
    · simp only [beq_false_of_ne own, ih, decide_eq_true_eq, Ne.symm own, if_false]

theorem lookup_pk_type_map (baseline : List TableDef) (actions : List MigrationAction)
    (parent : String) : (pkTypeMap baseline actions).lookup parent =
      parentKeyType createdKeyType baseline actions parent := by
  rw [pkTypeMap, foldl_insert, foldl_insert, List.append_nil, ← List.reverse_append,
    lookup_eq_head_filter, List.filter_reverse, List.head?_reverse, parentKeyType]

/-! The normalised plan -/

/-- A created table spelled as its normalised form. -/
def normalizeCreated : MigrationAction → Except TableValidationError MigrationAction
  | .createTable table columns constraints =>
      (TableDef.normalize ⟨table, none, columns, constraints⟩).map fun t =>
        .createTable table t.columns t.constraints
  | a => .ok a

def settleCreated : MigrationAction → MigrationAction
  | .createTable table columns constraints =>
      .createTable table columns (promoted ⟨table, none, columns, constraints⟩)
  | a => a

theorem normalize_created_ok {a a' : MigrationAction} (ok : normalizeCreated a = .ok a') :
    a' = settleCreated a := by
  cases a with
  | createTable table columns constraints =>
    simp only [normalizeCreated] at ok
    cases normal : (TableDef.mk table none columns constraints).normalize with
    | error e => simp [normal, Except.map] at ok
    | ok t =>
      obtain rfl := normalize_value normal
      simpa [normal, Except.map, settleCreated] using ok.symm
  | _ => exact (Except.ok.inj ok).symm

theorem normalize_plan_ok {actions actions' : List MigrationAction}
    (ok : actions.mapM normalizeCreated = .ok actions') : actions' = actions.map settleCreated := by
  induction actions generalizing actions' with
  | nil => exact (Except.ok.inj ok).symm
  | cons a actions ih =>
    rw [List.mapM_cons] at ok
    obtain ⟨a', own, rest⟩ := Results.bind_ok ok
    obtain ⟨settled, others, done⟩ := Results.bind_ok rest
    obtain rfl := Except.ok.inj done
    rw [List.map_cons, normalize_created_ok own, ih others]

/-- Of what tells of keys, normalisation adds one constraint, where the table has none. -/
theorem find_promoted {β : Type} (t : TableDef) {f : TableConstraint → Option β}
    (reads_keys : ∀ c, c.isPrimaryKey = false → f c = none) :
    (promoted t).findSome? f =
      if hasPrimaryKeyConstraint t.constraints then t.constraints.findSome? f
      else (primaryKeyCandidates t.columns).findSome? f := by
  let rest := uniqueCandidates t.columns ++ t.columns.filterMap foreignKeyCandidate ++
    indexCandidates t.columns
  have split : promoted t =
      appendMissing covers rest (addPrimaryKeyConstraint t.columns t.constraints) := by
    rw [primary_key_pass, ← append_missing_append]
    simp only [promoted, candidates, rest, List.append_assoc]
  have others : (missing covers rest
      (addPrimaryKeyConstraint t.columns t.constraints)).findSome? f = none := by
    refine List.findSome?_eq_none_iff.mpr fun c mem => reads_keys c ?_
    have candidate := missing_subset mem
    simp only [rest, List.mem_append] at candidate
    rcases candidate with (unique | foreign) | index
    · obtain ⟨_, _, rfl⟩ := List.mem_map.mp unique
      rfl
    · obtain ⟨_, _, found⟩ := List.mem_filterMap.mp foreign
      simp only [foreignKeyCandidate] at found
      split at found
      · simp at found
      · split at found
        · simp at found
        · exact Option.some.inj found ▸ rfl
    · obtain ⟨_, _, rfl⟩ := List.mem_map.mp index
      rfl
  rw [split, append_missing_eq, List.findSome?_append, others, Option.or_none]
  cases keyed : hasPrimaryKeyConstraint t.constraints with
  | true => simp [addPrimaryKeyConstraint, keyed]
  | false =>
    have own : t.constraints.findSome? f = none := by
      refine List.findSome?_eq_none_iff.mpr fun c mem => reads_keys c ?_
      simpa using List.any_eq_false.mp keyed c mem
    simp only [addPrimaryKeyConstraint, primaryKeyCandidates, keyed, Bool.false_eq_true, or_false,
      if_false]
    split
    · exact own
    · rw [List.findSome?_append, own, Option.none_or]

/-- The columns of the key as normalisation settles it: a column that says
    `primary_key: false` is out once another one declares a key. -/
def settledKey (columns : List ColumnDef) (constraints : List TableConstraint) : List String :=
  match constraints.findSome? (·.keyColumns) with
  | some cols => cols
  | none =>
      let declared := (columns.filter (·.declaresKey)).map (·.name)
      if declared = [] then (columns.filter (·.primaryKey.isSome)).map (·.name) else declared

theorem no_key_iff (constraints : List TableConstraint) :
    constraints.findSome? (·.keyColumns) = none ↔ hasPrimaryKeyConstraint constraints = false := by
  rw [← Bool.not_eq_true, has_primary_key_iff (f := (·.keyColumns)), not_not]
  intro c
  cases c <;> simp [TableConstraint.keyColumns, TableConstraint.isPrimaryKey]

theorem pk_columns_promoted (t : TableDef) :
    pkColumns t.columns (promoted t) = settledKey t.columns t.constraints := by
  have reads_keys : ∀ c : TableConstraint, c.isPrimaryKey = false → c.keyColumns = none := by
    intro c other
    cases c <;> simp_all [TableConstraint.keyColumns, TableConstraint.isPrimaryKey]
  rw [pkColumns, settledKey, find_promoted t reads_keys]
  cases found : t.constraints.findSome? (·.keyColumns) with
  | some cols =>
    have keyed : hasPrimaryKeyConstraint t.constraints = true := by
      rw [← Bool.not_eq_false, ← no_key_iff, found]
      simp
    rw [if_pos keyed]
  | none =>
    rw [(no_key_iff t.constraints).mp found]
    simp only [primaryKeyCandidates, collect_primary_key_columns, Bool.false_eq_true, if_false]
    by_cases undeclared : (t.columns.filter (·.declaresKey)).map (·.name) = []
    · simp [undeclared]
    · simp only [undeclared, if_false]
      rfl

def settledKeyType : MigrationAction → Option (String × SimpleColumnType)
  | .createTable table columns constraints =>
      (singleKeyWithType columns (settledKey columns constraints)).map fun (_, ty) => (table, ty)
  | _ => none

theorem created_key_type_settled (a : MigrationAction) :
    createdKeyType (settleCreated a) = settledKeyType a := by
  cases a with
  | createTable table columns constraints =>
    have same := pk_columns_promoted ⟨table, none, columns, constraints⟩
    simp only [settleCreated, createdKeyType, singlePkTypeFromCreateTable, same, settledKeyType,
      Option.map_map]
    rfl
  | _ => rfl

theorem parent_key_type_settled (actions : List MigrationAction) (parent : String) :
    parentKeyType createdKeyType baseline (actions.map settleCreated) parent =
      parentKeyType settledKeyType baseline actions parent := by
  have same : createdKeyType ∘ settleCreated = settledKeyType :=
    funext created_key_type_settled
  rw [parentKeyType, List.filterMap_map, same, parentKeyType]

theorem table_sequence_settled (a : MigrationAction) (key : String × String) :
    tableSequence baseline (settleCreated a) = some key ↔
      tableSequence baseline a = some key ∨ inlineSequence a = some key := by
  cases a with
  | createTable table columns constraints =>
    have reads_keys : ∀ c : TableConstraint, c.isPrimaryKey = false →
        c.autoIncrementColumn = none := by
      intro c other
      cases c <;> simp_all [TableConstraint.autoIncrementColumn, TableConstraint.isPrimaryKey]
    simp only [settleCreated, tableSequence, inlineSequence, singlePkWithAutoIncrement]
    rw [find_promoted ⟨table, none, columns, constraints⟩ reads_keys]
    cases keyed : hasPrimaryKeyConstraint constraints with
    | true => simp
    | false =>
      have own : constraints.findSome? (·.autoIncrementColumn) = none := by
        refine List.findSome?_eq_none_iff.mpr fun c mem => reads_keys c ?_
        simpa using List.any_eq_false.mp keyed c mem
      simp only [own, Bool.false_eq_true, if_false, reduceCtorEq, false_or, primaryKeyCandidates]
      generalize collectPrimaryKeyColumns columns = declared
      obtain ⟨names, autoIncrement⟩ := declared
      cases names with
      | nil => rfl
      | cons column names =>
        cases names with
        | cons second names => cases autoIncrement <;> rfl
        | nil =>
          cases autoIncrement with
          | false => rfl
          | true =>
            simp only [List.cons_ne_nil, if_false, List.findSome?_cons,
              TableConstraint.autoIncrementColumn]
            cases intTypeIn columns column <;> simp
  | _ => simp [settleCreated, inlineSequence]

theorem key_references_settled (a : MigrationAction) :
    keyReferences baseline (settleCreated a) = keyReferences baseline a := by
  cases a <;> rfl

theorem key_narrowing_settled (a : MigrationAction) :
    keyNarrowing baseline (settleCreated a) = keyNarrowing baseline a := by
  cases a <;> rfl

/-- No key at risk is declared by columns alone, unless an action shows it at the table
    level. No column at risk references a table whose key the two spellings of the plan
    read differently, unless it is as wide as either reading. -/
structure SpelledAlike (baseline : List TableDef) (actions : List MigrationAction) : Prop where
  sequences : ∀ a ∈ actions, ∀ key ∈ inlineSequence a,
    ∃ shown ∈ actions, tableSequence baseline shown = some key
  parents : ∀ a ∈ actions, ∀ r ∈ keyReferences baseline a,
    parentKeyType createdKeyType baseline actions r.parent =
      parentKeyType settledKeyType baseline actions r.parent ∨
    ∀ parentTy ∈ (parentKeyType createdKeyType baseline actions r.parent).toList ++
      (parentKeyType settledKeyType baseline actions r.parent).toList,
        isNarrowerThan r.childType parentTy = false

theorem warns_key_iff {a : MigrationAction} :
    Warns baseline m a (table, column, .primary) ↔
      tableSequence baseline a = some (table, column) := by
  constructor
  · intro warns
    cases warns with
    | key shown => exact shown
  · exact .key

theorem warns_narrowing_iff {a : MigrationAction} {fromType : SimpleColumnType} :
    Warns baseline m a (table, column, .pkTypeNarrowing fromType) ↔
      fromType = .bigInt ∧ keyNarrowing baseline a = some (table, column) := by
  constructor
  · intro warns
    cases warns with
    | narrowing narrowed => exact ⟨rfl, narrowed⟩
  · rintro ⟨rfl, narrowed⟩
    exact .narrowing narrowed

theorem warns_reference_iff {a : MigrationAction} {parentTy : SimpleColumnType} :
    Warns baseline m a (table, column, .foreignKeyMismatch parent parentTy) ↔
      ∃ r ∈ keyReferences baseline a, r.table = table ∧ r.column = column ∧ r.parent = parent ∧
        m.lookup parent = some parentTy ∧ isNarrowerThan r.childType parentTy = true := by
  constructor
  · intro warns
    cases warns with
    | reference made typed narrower => exact ⟨_, made, rfl, rfl, rfl, typed, narrower⟩
  · rintro ⟨r, made, rfl, rfl, rfl, typed, narrower⟩
    exact .reference made typed narrower

theorem reference_kept {actions : List MigrationAction} {a : MigrationAction} {r : KeyReference}
    {parentTy : SimpleColumnType} (alike : SpelledAlike baseline actions) (mem : a ∈ actions)
    (made : r ∈ keyReferences baseline a) (narrower : isNarrowerThan r.childType parentTy = true) :
    parentKeyType createdKeyType baseline actions r.parent = some parentTy ↔
      parentKeyType settledKeyType baseline actions r.parent = some parentTy := by
  rcases alike.parents a mem r made with same | wide
  · rw [same]
  · have absent (read : Option SimpleColumnType) (within : ∀ ty ∈ read.toList,
        isNarrowerThan r.childType ty = false) : read ≠ some parentTy := by
      rintro rfl
      simp [narrower] at within
    obtain ⟨declared, settled⟩ := List.forall_mem_append.mp wide
    exact iff_of_false (absent _ declared) (absent _ settled)

theorem warnings_kept_iff {plan : MigrationPlan} {actions' : List MigrationAction}
    (normal : plan.actions.mapM normalizeCreated = .ok actions') :
    (∀ site, site ∈ (findSequenceExhaustionRisks plan baseline).map warningSite ↔
      site ∈ (findSequenceExhaustionRisks { plan with actions := actions' } baseline).map
        warningSite) ↔ SpelledAlike baseline plan.actions := by
  obtain rfl := normalize_plan_ok normal
  have settled (site) : site ∈ (findSequenceExhaustionRisks
      { plan with actions := plan.actions.map settleCreated } baseline).map warningSite ↔
      ∃ a ∈ plan.actions, Warns baseline
        (pkTypeMap baseline (plan.actions.map settleCreated)) (settleCreated a) site := by
    simp [mem_warnings_iff]
  simp only [settled, mem_warnings_iff]
  constructor
  · intro kept
    refine ⟨fun a mem key inline => ?_, fun a mem r made => ?_⟩
    · obtain ⟨shown, here, warns⟩ := (kept (key.1, key.2, .primary)).mpr
        ⟨a, mem, warns_key_iff.mpr ((table_sequence_settled a key).mpr (.inr inline))⟩
      exact ⟨shown, here, warns_key_iff.mp warns⟩
    · by_contra apart
      push Not at apart
      obtain ⟨differ, parentTy, typed, narrow⟩ := apart
      have narrower := Bool.eq_true_of_not_eq_false narrow
      simp only [List.mem_append, Option.mem_toList] at typed
      have sited := kept (r.table, r.column, .foreignKeyMismatch r.parent parentTy)
      simp only [warns_reference_iff, key_references_settled, lookup_pk_type_map,
        parent_key_type_settled] at sited
      rcases typed with declared | normalized
      · obtain ⟨_, _, _, _, _, _, _, again, _⟩ :=
          sited.mp ⟨a, mem, r, made, rfl, rfl, rfl, declared, narrower⟩
        exact differ (declared.trans again.symm)
      · obtain ⟨_, _, _, _, _, _, _, again, _⟩ :=
          sited.mpr ⟨a, mem, r, made, rfl, rfl, rfl, normalized, narrower⟩
        exact differ (again.trans normalized.symm)
  · rintro alike ⟨table, column, kind⟩
    cases kind with
    | primary =>
      simp only [warns_key_iff, table_sequence_settled]
      constructor
      · rintro ⟨a, mem, shown⟩
        exact ⟨a, mem, .inl shown⟩
      · rintro ⟨a, mem, shown | inline⟩
        · exact ⟨a, mem, shown⟩
        · exact alike.sequences a mem _ inline
    | pkTypeNarrowing fromType => simp only [warns_narrowing_iff, key_narrowing_settled]
    | foreignKeyMismatch parent parentTy =>
      simp only [warns_reference_iff, key_references_settled, lookup_pk_type_map,
        parent_key_type_settled]
      constructor
      · rintro ⟨a, mem, r, made, rfl, rfl, rfl, typed, narrower⟩
        have normalized := (reference_kept alike mem made narrower).mp typed
        exact ⟨a, mem, r, made, rfl, rfl, rfl, normalized, narrower⟩
      · rintro ⟨a, mem, r, made, rfl, rfl, rfl, typed, narrower⟩
        have declared := (reference_kept alike mem made narrower).mpr typed
        exact ⟨a, mem, r, made, rfl, rfl, rfl, declared, narrower⟩

theorem integer_keys_kept :
    let column (name : String) (type : SimpleColumnType) := ColumnDef.new name (.simple type) false
    let accounts := { column "id" .bigInt with primaryKey := some (.object ⟨true⟩) }
    let author := { column "account_id" .integer with foreignKey := some (.string "account.id") }
    let plan : MigrationPlan := ⟨"", none, none, 1,
      [.createTable "account" [accounts] [],
        .createTable "post" [column "id" .integer, author] [.primaryKey true ["id"] .default]]⟩
    let normal : MigrationPlan := { plan with actions :=
      [.createTable "account" [accounts] [.primaryKey true ["id"] .default],
        .createTable "post" [column "id" .integer, author] [.primaryKey true ["id"] .default,
          .foreignKey none ["account_id"] "account" ["id"] none none .default]] }
    ∀ site, site ∈ (findSequenceExhaustionRisks plan []).map warningSite ↔
      site ∈ (findSequenceExhaustionRisks normal []).map warningSite :=
  (warnings_kept_iff (by decide)).mpr ⟨by decide, by decide⟩

/-- The inline auto-increment key of a created table is warned of in its normalised form only. -/
theorem inline_key_unseen :
    let id := { ColumnDef.new "id" (.simple .integer) false with
      primaryKey := some (.object ⟨true⟩) }
    let plan : MigrationPlan := ⟨"", none, none, 1, [.createTable "users" [id] []]⟩
    let normal : MigrationPlan :=
      { plan with actions := [.createTable "users" [id] [.primaryKey true ["id"] .default]] }
    plan.actions.mapM normalizeCreated = .ok normal.actions ∧
      (findSequenceExhaustionRisks plan []).map warningSite = [] ∧
      (findSequenceExhaustionRisks normal []).map warningSite = [("users", "id", .primary)] := by
  decide

end Vespertide
