import Mathlib.Data.List.Lex
import Mathlib.Data.Char
import Mathlib.Order.Compare
import Vespertide.CheckGrammar
import Vespertide.Support.Binary64

/-!
The search for conjuncts of a CHECK expression that contradict each other.
-/
namespace Vespertide

/-! Literals -/

def decimalValue (raw : List Char) : ℚ :=
  let (sign, body) := takeSign raw
  let (whole, rest) := takeWhileRest Char.isDigit body
  let (fraction, rest) := takeFraction rest
  let (scaleSign, scale) := takeSign rest.tail
  let magnitude : ℚ := digitsValue (whole ++ fraction) / 10 ^ fraction.length
  let exponent : ℤ := if scaleSign = ['-'] then -(digitsValue scale : ℤ) else digitsValue scale
  (if sign = ['-'] then -magnitude else magnitude) * 10 ^ exponent

/-- `parse::<f64>` -/
def parseF64 (text : String) : ℚ := Binary64.round (decimalValue text.toList)

def orderOf {α : Type} [LinearOrder α] (a b : α) : Ordering := cmp a b

section Order
variable {α : Type} [LinearOrder α]

theorem order_lt_iff {a b : α} : orderOf a b = .lt ↔ a < b := cmp_eq_lt_iff a b

theorem order_eq_iff {a b : α} : orderOf a b = .eq ↔ a = b := cmp_eq_eq_iff a b

theorem order_gt_iff {a b : α} : orderOf a b = .gt ↔ b < a := cmp_eq_gt_iff a b

end Order

/-- Strings are compared as they are written, quotes included. -/
def CheckLiteral.cmpValue : CheckLiteral → CheckLiteral → Option Ordering
  | .integer a, .integer b => some (orderOf a b)
  | .float a, .float b => some (orderOf (parseF64 a) (parseF64 b))
  | .integer a, .float b => some (orderOf (Binary64.round a) (parseF64 b))
  | .float a, .integer b => some (orderOf (parseF64 a) (Binary64.round b))
  | .string a, .string b => some (orderOf a.toList b.toList)
  | .bool a, .bool b => some (orderOf a b)
  | _, _ => none

section Display
variable (displayFloat : String → String)

def CheckLiteral.displayValue : CheckLiteral → String
  | .integer n => toString n
  | .float text => displayFloat text
  | .string quoted => quoted
  | .bool b => toString b
  | .null => "NULL"

end Display

/-! Search -/

structure Contradiction where
  column : String
  first : String
  second : String
  deriving DecidableEq, Repr

mutual

def flattenAnd : List CheckExpr → List CheckExpr
  | [] => []
  | part :: rest => flattenPart part ++ flattenAnd rest
termination_by structural parts => parts

def flattenPart : CheckExpr → List CheckExpr
  | .and inner => flattenAnd inner
  | part => [part]
termination_by structural part => part

end

def predicateColumn : CheckExpr → Option String
  | .compare column _ _ => some column
  | .in column _ _ => some column
  | .between column _ _ _ => some column
  | .isNull column _ => some column
  | _ => none

def addToGroup (column : String) (pred : CheckExpr) :
    List (String × List CheckExpr) → List (String × List CheckExpr)
  | [] => [(column, [pred])]
  | (c, existing) :: groups =>
      if c = column then (c, existing ++ [pred]) :: groups
      else (c, existing) :: addToGroup column pred groups

def groupPredicatesByColumn (flat : List CheckExpr) : List (String × List CheckExpr) :=
  flat.foldl (fun groups pred =>
    match predicateColumn pred with
    | some column => addToGroup column pred groups
    | none => groups) []

def formatCompare (column : String) (op : CheckOp) (value : String) : String :=
  let text := match op with
    | .eq => "="
    | .ne => "<>"
    | .lt => "<"
    | .le => "<="
    | .gt => ">"
    | .ge => ">="
  column ++ " " ++ text ++ " " ++ value

def formatIsNull (column : String) (negated : Bool) : String :=
  if negated then column ++ " IS NOT NULL" else column ++ " IS NULL"

def boundsOf {α : Type} (opA : CheckOp) (va : α) (opB : CheckOp) (vb : α) :
    Option (CheckOp × α × CheckOp × α) :=
  match opA, opB with
  | .gt, .lt | .gt, .le | .ge, .lt | .ge, .le => some (opA, va, opB, vb)
  | .lt, .gt | .lt, .ge | .le, .gt | .le, .ge => some (opB, vb, opA, va)
  | _, _ => none

section Pairs
variable (displayFloat : String → String)

def comparePairContradicts (opA : CheckOp) (va : CheckLiteral) (opB : CheckOp) (vb : CheckLiteral) :
    Option (String × String) :=
  let shown := (va.displayValue displayFloat, vb.displayValue displayFloat)
  match va.cmpValue vb with
  | none => none
  | some order =>
      if opA = .eq ∧ opB = .eq ∧ order ≠ .eq then some shown
      else if (opA = .eq ∧ opB = .ne ∨ opA = .ne ∧ opB = .eq) ∧ order = .eq then some shown
      else
        match boundsOf opA va opB vb with
        | none => none
        | some (lowerOp, lower, upperOp, upper) =>
            match lower.cmpValue upper with
            | none => none
            | some lowerVsUpper =>
                let strictBoundary := lowerOp = .gt ∨ upperOp = .lt
                if lowerVsUpper = .gt ∨ strictBoundary ∧ lowerVsUpper = .eq then some shown
                else none

def isNullVsOther (a b : CheckExpr) : Option (Bool × CheckOp × CheckLiteral) :=
  match a, b with
  | .isNull _ negated, .compare _ op value => some (negated, op, value)
  | .compare _ op value, .isNull _ negated => some (negated, op, value)
  | _, _ => none

def compareVsCompare (column : String) (a b : CheckExpr) : Option Contradiction :=
  match a, b with
  | .compare _ opA va, .compare _ opB vb =>
      (comparePairContradicts displayFloat opA va opB vb).map fun (first, second) =>
        ⟨column, formatCompare column opA first, formatCompare column opB second⟩
  | _, _ => none

def isNullVsIsNull (column : String) (a b : CheckExpr) : Option Contradiction :=
  match a, b with
  | .isNull _ na, .isNull _ nb =>
      if na ≠ nb then some ⟨column, formatIsNull column na, formatIsNull column nb⟩ else none
  | _, _ => none

def checkPair (column : String) (a b : CheckExpr) : Option Contradiction :=
  (compareVsCompare displayFloat column a b).or
    ((isNullVsIsNull column a b).or
      (match isNullVsOther a b with
      | some (false, op, value) =>
          some ⟨column, formatIsNull column false,
            formatCompare column op (value.displayValue displayFloat)⟩
      | _ => none))

def pairsOf : List CheckExpr → List (CheckExpr × CheckExpr)
  | [] => []
  | a :: rest => rest.map (a, ·) ++ pairsOf rest

/-- The first contradictory pair of one column among flattened conjuncts. -/
def contradictoryPair (flat : List CheckExpr) : Option Contradiction :=
  (groupPredicatesByColumn flat).findSome? fun (column, preds) =>
    (pairsOf preds).findSome? fun (a, b) => checkPair displayFloat column a b

mutual

def findContradiction : CheckExpr → Option Contradiction
  | .and parts => (contradictoryPair displayFloat (flattenAnd parts)).or (findInFlat parts)
  | .or parts => findInBranches parts
  | _ => none
termination_by structural expr => expr

def findInFlat : List CheckExpr → Option Contradiction
  | [] => none
  | part :: rest => (findInPart part).or (findInFlat rest)
termination_by structural parts => parts

/-- A conjunct that is an `And` itself was flattened. -/
def findInPart : CheckExpr → Option Contradiction
  | .and inner => findInFlat inner
  | .or parts => findInBranches parts
  | _ => none
termination_by structural part => part

def findInBranches : List CheckExpr → Option Contradiction
  | [] => none
  | part :: rest => (findContradiction part).or (findInBranches rest)
termination_by structural parts => parts

end

end Pairs


example : findContradiction id (.and [.compare "a" .gt (.integer 5),
    .and [.isNull "b" true, .compare "a" .lt (.integer 5)]]) = some ⟨"a", "a > 5", "a < 5"⟩ := by
  rfl

end Vespertide
