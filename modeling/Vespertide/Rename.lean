import Vespertide.CheckRename
import Vespertide.ModelDocument
import Vespertide.Normalize

/-!
The editor's rename: the symbol under the cursor, the references to it found by
key and place in the tree, and the documents with every reference replaced.
A scalar's text is what its quotes enclose, without escapes.
-/
namespace Vespertide
open Documents

inductive ReferenceSymbol where
  | table (name : String)
  | column (table column : String)
  deriving DecidableEq

def ReferenceSymbol.oldName : ReferenceSymbol → String
  | .table name => name
  | .column _ name => name

/-- Where a pair stands: the pairs of the outermost mapping above it, and those of
    its own mapping. -/
structure PairPlace where
  outer : List (String × Node)
  topLevel : Bool
  siblings : List (String × Node)

def directChildScalar (pairs : List (String × Node)) (key : String) : Option String :=
  (pairs.lookup key).bind readText

namespace PairPlace

def outerTableName (place : PairPlace) : Option String := directChildScalar place.outer "name"

def isCheckConstraintPair (place : PairPlace) : Bool :=
  directChildScalar place.siblings "type" = some "check"

def siblingRefTableMatches (place : PairPlace) (table : String) : Bool :=
  directChildScalar place.siblings "ref_table" = some table

/-- Any mapping below the outermost one passes for a column. -/
def isColumnPair (place : PairPlace) (table : String) : Bool :=
  ¬ place.topLevel ∧ place.outerTableName = some table

end PairPlace

def valueMatches (value : Node) (expected : String) : Bool := readText value = some expected

/-- What of a pair's value is a reference. -/
inductive PairHit where
  | nothing
  | scalar
  | elements
  | identifiers
  deriving DecidableEq

def inspectPair (symbol : ReferenceSymbol) (place : PairPlace) (key : String) (value : Node) :
    PairHit :=
  match symbol with
  | .table name =>
      if key = "ref_table" ∧ valueMatches value name then .scalar
      else if key = "name" ∧ valueMatches value name ∧ place.topLevel then .scalar
      else .nothing
  | .column table column =>
      if key = "ref_columns" ∧ place.siblingRefTableMatches table then .elements
      else if key = "name" ∧ valueMatches value column ∧ place.isColumnPair table then .scalar
      else if key = "expr" ∧ place.isCheckConstraintPair ∧ place.outerTableName = some table then
        .identifiers
      else .nothing

def editIdentifiers (column new : String) : Node → Node
  | .scalar (.text expr) => .scalar (.text (renameInCheckExpr column new expr))
  | node => node

/-! The walk: `outer` is the outermost mapping above the node, if there is one, and
    `within` tells that the node stands among the elements of a matching list, where keys
    are scalars like all others. -/

mutual

def walkForSymbol (symbol : ReferenceSymbol) (new : String) (outer : Option (List (String × Node)))
    (within : Bool) : Node → Node
  | .scalar (.text s) => .scalar (.text (if within ∧ s = symbol.oldName then new else s))
  | .scalar s => .scalar s
  | .array items => .array (walkItems symbol new outer within items)
  | .mapping pairs =>
      .mapping (walkPairs symbol new ⟨outer.getD pairs, outer.isNone, pairs⟩ within pairs)

def walkItems (symbol : ReferenceSymbol) (new : String) (outer : Option (List (String × Node)))
    (within : Bool) : List Node → List Node
  | [] => []
  | item :: rest =>
      walkForSymbol symbol new outer within item :: walkItems symbol new outer within rest

def walkPairs (symbol : ReferenceSymbol) (new : String) (place : PairPlace) (within : Bool) :
    List (String × Node) → List (String × Node)
  | [] => []
  | (key, value) :: rest =>
      (if within ∧ key = symbol.oldName then new else key,
        match inspectPair symbol place key value with
        | .scalar => .scalar (.text new)
        | .elements => walkForSymbol symbol new (some place.outer) true value
        | .identifiers => editIdentifiers symbol.oldName new value
        | .nothing => walkForSymbol symbol new (some place.outer) within value) ::
      walkPairs symbol new place within rest

end

/-! The symbol under the cursor -/

/-- A document, the way down to a scalar by positions, and a byte offset into its text. -/
structure Cursor where
  document : Nat
  path : List Nat
  offset : Nat

/-- The text at the end of a path, and the nearest pair above it. -/
def scalarAt (pair : Option (String × PairPlace)) : List Nat → Node →
    Option (String × Option (String × PairPlace))
  | [], .scalar (.text s) => some (s, pair)
  | i :: path, .array items => items[i]?.bind (scalarAt pair path)
  | i :: path, .mapping pairs =>
      let place : PairPlace :=
        match pair with
        | none => ⟨pairs, true, pairs⟩
        | some (_, above) => ⟨above.outer, false, pairs⟩
      pairs[i]?.bind fun (key, value) => scalarAt (some (key, place)) path value
  | _, _ => none

def resolveCheckExprColumn (place : PairPlace) (expr : String) (offset : Nat) :
    Option ReferenceSymbol := do
  let tokens ← tokenizeSpanned expr.toList
  let column ← tokens.findSome? fun t =>
    match t.token with
    | .ident column => if t.start ≤ offset ∧ offset < t.stop then some column else none
    | _ => none
  let owningTable ← place.outerTableName
  some (.column owningTable column)

def resolveSymbol (docs : List Node) (cursor : Cursor) : Option ReferenceSymbol := do
  let doc ← docs[cursor.document]?
  let (text, pair) ← scalarAt none cursor.path doc
  let (key, place) ← pair
  if text = "" then none
  else if key = "name" ∧ place.topLevel then some (.table text)
  else if key = "ref_table" then some (.table text)
  else if key = "name" then place.outerTableName.map fun table => .column table text
  else if key = "ref_columns" then
    (directChildScalar place.siblings "ref_table").map fun table => .column table text
  else if key = "expr" ∧ place.isCheckConstraintPair then
    resolveCheckExprColumn place text cursor.offset
  else none

/-! Rename -/

end Vespertide
