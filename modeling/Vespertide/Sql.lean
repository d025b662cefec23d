import Vespertide.Schema
import Vespertide.Support.SqlRows

/-!
Quoting of identifiers, and the text of the row statements the builders emit
ahead of a new constraint. The text is the same on every backend up to the
quote character.
-/
namespace Vespertide
open SqlRows

inductive QueryError where
  | unsupportedConstraint
  | invalidColumnType (backend : DatabaseBackend) (message : String)
  | schemaError (message : String)
  | unsupportedAction (message : String)
  /-- An unsupported action too: the message ends in the debug form of the type. -/
  | timezoneMisplaced (newType : ColumnType)
  | backendError (backend : DatabaseBackend) (message : String)
  deriving DecidableEq, Repr

def quoteDelimiter : DatabaseBackend → Char
  | .postgres => '"'
  | .sqlite => '"'
  | .mySql => '`'

/-- An embedded quote character is doubled. -/
def quoteIdent (name : String) (backend : DatabaseBackend) : String :=
  let delim := quoteDelimiter backend
  String.ofList
    (delim :: (name.toList.flatMap fun c => if c = delim then [delim, delim] else [c]) ++ [delim])

def quoteIdents (names : List String) (backend : DatabaseBackend) : String :=
  ", ".intercalate (names.map (quoteIdent · backend))

section Render
variable (backend : DatabaseBackend)

def renderColumnRef (ref : ColumnRef String) : String :=
  match ref.table with
  | some table => quoteIdent table backend ++ "." ++ quoteIdent ref.column backend
  | none => quoteIdent ref.column backend

def renderAggregate : Aggregate → String
  | .min => "MIN"
  | .max => "MAX"

def renderCondition : Condition String → String
  | .eq a b => renderColumnRef backend a ++ " = " ++ renderColumnRef backend b
  | .isNotNull a => renderColumnRef backend a ++ " IS NOT NULL"
  | .not a => "NOT " ++ renderCondition a
  | .and a b => renderCondition a ++ " AND " ++ renderCondition b
  | .or a b => renderCondition a ++ " OR " ++ renderCondition b
  | .paren a => "(" ++ renderCondition a ++ ")"
  | .exists table filter =>
      "EXISTS (SELECT 1 FROM " ++ quoteIdent table backend ++ " WHERE " ++
        renderCondition filter ++ ")"
  | .notInGrouped a agg column table groupBy =>
      renderColumnRef backend a ++ " NOT IN (SELECT " ++ renderAggregate agg ++ "(" ++
        quoteIdent column backend ++ ") FROM " ++ quoteIdent table backend ++ " GROUP BY " ++
        quoteIdents groupBy backend ++ ")"

def renderStatement : Statement String → String
  | .updateNull table columns filter =>
      "UPDATE " ++ quoteIdent table backend ++ " SET " ++
        ", ".intercalate (columns.map fun c => quoteIdent c backend ++ " = NULL") ++
        " WHERE " ++ renderCondition backend filter
  | .delete table filter =>
      "DELETE FROM " ++ quoteIdent table backend ++ " WHERE " ++ renderCondition backend filter

end Render

end Vespertide
