import Vespertide.Action
import Vespertide.Query

/-!
Type changes whose new type cannot hold every value of the old one, and the
row statement that runs before such a change.
-/
namespace Vespertide

inductive NarrowingKind where
  | varcharLength (old new : Nat)
  | charLength (old new : Nat)
  | varcharToCharShorter (old new : Nat)
  | charToVarcharShorter (old new : Nat)
  | numericScale (fromScale toScale : Nat)
  | numericIntegerDigits (fromIntDigits toIntDigits : Nat)
  | integerSize (old new : String)
  | floatSize (old new : String)
  | textToVarchar (toLength : Nat)
  | textToChar (toLength : Nat)
  | timestamptzToTimestamp
  deriving DecidableEq, Repr

/-- The kinds an error names, as the source prints them. -/
def NarrowingKind.debug : NarrowingKind → String
  | .varcharLength old new => s!"VarcharLength \x7b from: {old}, to: {new} \x7d"
  | .charLength old new => s!"CharLength \x7b from: {old}, to: {new} \x7d"
  | .varcharToCharShorter old new => s!"VarcharToCharShorter \x7b from: {old}, to: {new} \x7d"
  | .charToVarcharShorter old new => s!"CharToVarcharShorter \x7b from: {old}, to: {new} \x7d"
  | .numericScale old new => s!"NumericScale \x7b from_scale: {old}, to_scale: {new} \x7d"
  | .numericIntegerDigits old new =>
      s!"NumericIntegerDigits \x7b from_int_digits: {old}, to_int_digits: {new} \x7d"
  | .integerSize old new => s!"IntegerSize \x7b from: \"{old}\", to: \"{new}\" \x7d"
  | .floatSize old new => s!"FloatSize \x7b from: \"{old}\", to: \"{new}\" \x7d"
  | .textToVarchar toLength => s!"TextToVarchar \x7b to_length: {toLength} \x7d"
  | .textToChar toLength => s!"TextToChar \x7b to_length: {toLength} \x7d"
  | .timestamptzToTimestamp => "TimestamptzToTimestamp"

def isNarrowing : ColumnType → ColumnType → Option NarrowingKind
  | .complex (.varchar a), .complex (.varchar b) => if b < a then some (.varcharLength a b) else none
  | .complex (.char a), .complex (.char b) => if b < a then some (.charLength a b) else none
  | .complex (.varchar a), .complex (.char b) =>
      if b < a then some (.varcharToCharShorter a b) else none
  | .complex (.char a), .complex (.varchar b) =>
      if b < a then some (.charToVarcharShorter a b) else none
  | .simple .text, .complex (.varchar length) => some (.textToVarchar length)
  | .simple .text, .complex (.char length) => some (.textToChar length)
  | .complex (.numeric p1 s1), .complex (.numeric p2 s2) =>
      -- the scale is reported when both dimensions shrink
      if s2 < s1 then some (.numericScale s1 s2)
      else if p2 - s2 < p1 - s1 then some (.numericIntegerDigits (p1 - s1) (p2 - s2))
      else none
  | .simple .bigInt, .simple .integer => some (.integerSize "bigint" "integer")
  | .simple .bigInt, .simple .smallInt => some (.integerSize "bigint" "smallint")
  | .simple .integer, .simple .smallInt => some (.integerSize "integer" "smallint")
  | .simple .doublePrecision, .simple .real => some (.floatSize "double precision" "real")
  | .simple .timestamptz, .simple .timestamp => some .timestamptzToTimestamp
  | _, _ => none

section Preprocess
variable (backend : DatabaseBackend) (table column : String)

def stringLeftUpdate (newLen : Nat) : BuiltQuery :=
  let c := quoteIdent column backend
  let set := "UPDATE " ++ quoteIdent table backend ++ " SET " ++ c ++ " = "
  .changeRows table (set ++ match backend with
    | .postgres => s!"LEFT({c}, {newLen}) WHERE LENGTH({c}) > {newLen}"
    | .mySql => s!"LEFT({c}, {newLen}) WHERE CHAR_LENGTH({c}) > {newLen}"
    | .sqlite => s!"substr({c}, 1, {newLen}) WHERE length({c}) > {newLen}")

def numericRoundUpdate (newScale : Nat) : BuiltQuery :=
  let c := quoteIdent column backend
  .changeRows table
    ("UPDATE " ++ quoteIdent table backend ++ " SET " ++ c ++ s!" = ROUND({c}, {newScale})")

def buildTruncate (kind : NarrowingKind) : Except QueryError (List BuiltQuery) :=
  match kind with
  | .varcharLength _ new | .charLength _ new | .varcharToCharShorter _ new
  | .charToVarcharShorter _ new => .ok [stringLeftUpdate backend table column new]
  | .textToVarchar toLength | .textToChar toLength =>
      .ok [stringLeftUpdate backend table column toLength]
  | .numericScale _ toScale => .ok [numericRoundUpdate backend table column toScale]
  | .numericIntegerDigits _ _ | .integerSize _ _ | .floatSize _ _ | .timestamptzToTimestamp =>
      .error (.unsupportedAction s!"narrowing_strategy=truncate is not defined for {kind.debug}; use `delete` or `set_to_value` instead")

/-- `10^n` in digits, at most the largest precision of a backend. -/
def tenPowString (n : Nat) : String := "1" ++ String.ofList (List.replicate (min n 38) '0')

def integerBounds (target : String) : Int × Int :=
  if target = "smallint" then (-32768, 32767)
  else if target = "integer" then (-2147483648, 2147483647)
  else (-9223372036854775808, 9223372036854775807)

def violationPredicate (kind : NarrowingKind) : Except QueryError String :=
  let c := quoteIdent column backend
  let lenFn := match backend with
    | .mySql => "CHAR_LENGTH"
    | .postgres => "LENGTH"
    | .sqlite => "length"
  match kind with
  | .varcharLength _ new | .charLength _ new | .varcharToCharShorter _ new
  | .charToVarcharShorter _ new => .ok s!"{lenFn}({c}) > {new}"
  | .textToVarchar toLength | .textToChar toLength => .ok s!"{lenFn}({c}) > {toLength}"
  | .numericScale _ toScale => .ok s!"{c} <> ROUND({c}, {toScale})"
  | .numericIntegerDigits _ toIntDigits => .ok s!"ABS({c}) >= {tenPowString toIntDigits}"
  | .integerSize _ target =>
      let (low, high) := integerBounds target
      .ok s!"{c} > {high} OR {c} < {low}"
  | .floatSize _ _ =>
      .error (.unsupportedAction s!"narrowing_strategy={kind.debug} cannot generate a violation predicate (every value is affected by precision downcast)")
  | .timestamptzToTimestamp =>
      .error (.unsupportedAction "narrowing_strategy on timestamptz->timestamp is not supported (every row is reinterpreted; pre-clean via fill_with timezone prompt instead)")

def buildDelete (kind : NarrowingKind) : Except QueryError (List BuiltQuery) :=
  (violationPredicate backend column kind).map fun condition =>
    [.changeRows table ("DELETE FROM " ++ quoteIdent table backend ++ " WHERE " ++ condition)]

def buildSetToValue (kind : NarrowingKind) (value : String) :
    Except QueryError (List BuiltQuery) :=
  (violationPredicate backend column kind).map fun condition =>
    [.changeRows table ("UPDATE " ++ quoteIdent table backend ++ " SET " ++
      quoteIdent column backend ++ " = " ++ value ++ " WHERE " ++ condition)]

def lookupOldType (baseline : List TableDef) : Option ColumnType :=
  ((baseline.find? (·.name = table)).bind fun t =>
    t.columns.find? (·.name = column)).map (·.type)

def buildNarrowingPreprocess (newType : ColumnType) (strategy : NarrowingStrategy)
    (baseline : List TableDef) : Except QueryError (List BuiltQuery) :=
  match lookupOldType table column baseline with
  | none => .ok []
  | some oldType =>
      match isNarrowing oldType newType, strategy with
      | none, _ => .ok []
      | some kind, .truncate => buildTruncate backend table column kind
      | some kind, .setToValue value => buildSetToValue backend table column kind value
      | some kind, .delete => buildDelete backend table column kind

end Preprocess

end Vespertide
