import Vespertide.Action
import Vespertide.CheckDefault

/-!
The search for CHECK constraints that a plan replaces by stricter ones.
-/
namespace Vespertide

inductive CheckStrengtheningKind where
  | boundaryTightened
  | operatorTightened
  | inListShrunk
  | betweenNarrowed
  | conjunctAdded
  | disjunctRemoved
  deriving DecidableEq, Repr

/-! Literals and expressions -/

/-- Floats are equal within the machine epsilon. -/
def CheckLiteral.approxEq : CheckLiteral → CheckLiteral → Bool
  | .integer x, .integer y => x = y
  | .float x, .float y => (f64Gap (parseF64 x) (parseF64 y)).any (· < f64Epsilon)
  | .integer x, .float y => (f64Gap (i64ToF64 x) (parseF64 y)).any (· < f64Epsilon)
  | .float x, .integer y => (f64Gap (parseF64 x) (i64ToF64 y)).any (· < f64Epsilon)
  | .string x, .string y => x = y
  | .bool x, .bool y => x = y
  | .null, .null => true
  | _, _ => false

/-- The derived `PartialEq`: floats compare as floats. -/
def CheckLiteral.eqv : CheckLiteral → CheckLiteral → Bool
  | .integer x, .integer y => x = y
  | .float x, .float y => parseF64 x = parseF64 y
  | .string x, .string y => x = y
  | .bool x, .bool y => x = y
  | .null, .null => true
  | _, _ => false

def literalsEqv : List CheckLiteral → List CheckLiteral → Bool
  | [], [] => true
  | x :: xs, y :: ys => x.eqv y && literalsEqv xs ys
  | _, _ => false

mutual

def CheckExpr.eqv : CheckExpr → CheckExpr → Bool
  | .compare c op value, .compare c' op' value' => c = c' && op = op' && value.eqv value'
  | .in c values negated, .in c' values' negated' =>
      c = c' && literalsEqv values values' && negated = negated'
  | .between c low high negated, .between c' low' high' negated' =>
      c = c' && low.eqv low' && high.eqv high' && negated = negated'
  | .isNull c negated, .isNull c' negated' => c = c' && negated = negated'
  | .and parts, .and parts' => partsEqv parts parts'
  | .or parts, .or parts' => partsEqv parts parts'
  | .not inner, .not inner' => inner.eqv inner'
  | .unparseable, .unparseable => true
  | _, _ => false
termination_by structural expr => expr

def partsEqv : List CheckExpr → List CheckExpr → Bool
  | [], [] => true
  | x :: xs, y :: ys => x.eqv y && partsEqv xs ys
  | _, _ => false
termination_by structural parts => parts

end

/-! Classification -/

def compareStrictness (op1 : CheckOp) (v1 : CheckLiteral) (op2 : CheckOp) (v2 : CheckLiteral) :
    Option CheckStrengtheningKind :=
  if op1 = op2 ∧ v1.approxEq v2 then none
  else if op1 = op2 then
    match v1.cmpValue v2, op1 with
    | some .lt, .gt | some .lt, .ge => some .boundaryTightened
    | some .gt, .lt | some .gt, .le => some .boundaryTightened
    | _, _ => none
  else if v1.approxEq v2 then
    match op1, op2 with
    | .ge, .gt | .le, .lt => some .operatorTightened
    | _, _ => none
  else none

def inIsStrictSubset (subset superset : List CheckLiteral) : Bool :=
  subset.length < superset.length && !subset.isEmpty &&
    subset.all fun s => superset.any fun o => s.approxEq o

def betweenIsNarrower (oldLow oldHigh newLow newHigh : CheckLiteral) : Bool :=
  match oldLow.cmpValue newLow, oldHigh.cmpValue newHigh with
  | some low, some high =>
      (low = .lt ∨ low = .eq) && (high = .gt ∨ high = .eq) && (low = .lt ∨ high = .gt)
  | _, _ => false

def classifyPair : CheckExpr → CheckExpr → Option CheckStrengtheningKind
  | .compare c1 op1 v1, .compare c2 op2 v2 =>
      if c1 = c2 then compareStrictness op1 v1 op2 v2 else none
  | .in c1 vs1 false, .in c2 vs2 false =>
      if c1 = c2 ∧ inIsStrictSubset vs2 vs1 then some .inListShrunk else none
  | .between c1 l1 h1 false, .between c2 l2 h2 false =>
      if c1 = c2 ∧ betweenIsNarrower l1 h1 l2 h2 then some .betweenNarrowed else none
  | .and oldParts, .and newParts =>
      if oldParts.length < newParts.length ∧
          oldParts.all fun op => newParts.any fun np => np.eqv op then some .conjunctAdded
      else none
  | .or oldParts, .or newParts =>
      if newParts ≠ [] ∧ newParts.length < oldParts.length ∧
          newParts.all fun np => oldParts.any fun op => op.eqv np then some .disjunctRemoved
      else none
  | oldAtom, .and newParts =>
      if 2 ≤ newParts.length ∧ newParts.any fun p => p.eqv oldAtom then some .conjunctAdded
      else none
  | _, _ => none

def CheckExpr.isUnparseable : CheckExpr → Bool
  | .unparseable => true
  | _ => false

def classifyStrengthening (oldExpr newExpr : String) : Option CheckStrengtheningKind :=
  if Text.trim oldExpr.toList = Text.trim newExpr.toList then none
  else
    let old := parseCheckExpr oldExpr
    let new := parseCheckExpr newExpr
    if old.isUnparseable ∨ new.isUnparseable then none
    else if old.eqv new then none
    else classifyPair old new

/-! Search -/

structure CheckStrengtheningWarning where
  actionIndex : Nat
  table : String
  constraintName : String
  oldExpr : String
  newExpr : String
  kind : CheckStrengtheningKind
  deriving DecidableEq, Repr

structure CheckEntry where
  table : String
  name : String
  expr : String

/-- The entry that was inserted last is the first one. -/
def lookupCheck (table name : String) (entries : List CheckEntry) : Option String :=
  (entries.find? fun entry => entry.table = table ∧ entry.name = name).map (·.expr)

def buildBaselineCheckMap (baseline : List TableDef) : List CheckEntry :=
  (baseline.flatMap fun t => t.constraints.filterMap fun constraint =>
    match constraint with
    | .check name expr _ => some ⟨t.name, name, expr⟩
    | _ => none).reverse

def replacedCheck (removed baseline : List CheckEntry) :
    MigrationAction → Option (CheckEntry × String)
  | .replaceConstraint table (.check oldName oldExpr _) (.check newName newExpr _) =>
      if oldName = newName then some (⟨table, newName, oldExpr⟩, newExpr) else none
  | .addConstraint table (.check name newExpr _) =>
      ((lookupCheck table name removed).or (lookupCheck table name baseline)).map
        fun oldExpr => (⟨table, name, oldExpr⟩, newExpr)
  | _ => none

def removedAfter (removed : List CheckEntry) : MigrationAction → List CheckEntry
  | .removeConstraint table (.check name expr _) => ⟨table, name, expr⟩ :: removed
  | _ => removed

def strengtheningOf (idx : Nat) (old : CheckEntry) (newExpr : String) :
    Option CheckStrengtheningWarning :=
  (classifyStrengthening old.expr newExpr).map fun kind =>
    ⟨idx, old.table, old.name, old.expr, newExpr, kind⟩

def strengtheningsFrom (baseline : List CheckEntry) :
    Nat → List CheckEntry → List MigrationAction → List CheckStrengtheningWarning
  | _, _, [] => []
  | idx, removed, action :: rest =>
      ((replacedCheck removed baseline action).bind fun (old, newExpr) =>
          strengtheningOf idx old newExpr).toList ++
        strengtheningsFrom baseline (idx + 1) (removedAfter removed action) rest

def findCheckStrengthenings (plan : MigrationPlan) (baseline : List TableDef) :
    List CheckStrengtheningWarning :=
  strengtheningsFrom (buildBaselineCheckMap baseline) 0 [] plan.actions

theorem strengthening_classified {plan : MigrationPlan} {baseline : List TableDef}
    {warning : CheckStrengtheningWarning}
    (found : warning ∈ findCheckStrengthenings plan baseline) :
    classifyStrengthening warning.oldExpr warning.newExpr = some warning.kind := by
  have each : ∀ entries idx removed actions, warning ∈ strengtheningsFrom entries idx removed actions →
      classifyStrengthening warning.oldExpr warning.newExpr = some warning.kind := by
    intro entries idx removed actions mem
    induction actions generalizing idx removed with
    | nil => cases mem
    | cons action rest ih =>
      rw [strengtheningsFrom, List.mem_append, Option.mem_toList] at mem
      obtain here | later := mem
      · obtain ⟨pair, -, found⟩ := Option.bind_eq_some_iff.mp here
        obtain ⟨kind, classified, rfl⟩ := Option.map_eq_some_iff.mp found
        exact classified
      · exact ih _ _ later
  exact each _ _ _ _ found

end Vespertide
