import Vespertide.Rename

/-!
What the editor's rename does to the table a document is read into: the effect
on every part, followed from the scalars up.
-/
namespace Vespertide
open Documents

/-! The effect on a table -/

def renamed (old new s : String) : String := if s = old then new else s

namespace ReferenceSymbol
variable (symbol : ReferenceSymbol) (new : String)

def editName (owner s : String) : String :=
  match symbol with
  | .table _ => s
  | .column target name => if owner = target then renamed name new s else s

def editTableName (s : String) : String :=
  match symbol with
  | .table name => renamed name new s
  | .column _ _ => s

def editRefColumns (refTable : String) (columns : List String) : List String :=
  match symbol with
  | .table _ => columns
  | .column target name => if refTable = target then columns.map (renamed name new) else columns

def editForeignKeyDef (d : ForeignKeyDef) : ForeignKeyDef :=
  { d with
    refTable := symbol.editTableName new d.refTable
    refColumns := symbol.editRefColumns new d.refTable d.refColumns }

/-- The short spellings are no references to the editor. -/
def editForeignKey : ForeignKeySyntax → ForeignKeySyntax
  | .string s => .string s
  | .reference r => .reference r
  | .object d => .object (symbol.editForeignKeyDef new d)

def editNumValue (owner : String) (v : NumValue) : NumValue :=
  { v with name := symbol.editName new owner v.name }

def editEnumValues (owner : String) : EnumValues → EnumValues
  | .string values => .string values
  | .integer values => .integer (values.map (symbol.editNumValue new owner))

def editComplexType (owner : String) : ComplexColumnType → ComplexColumnType
  | .enum name values =>
      .enum (symbol.editName new owner name) (symbol.editEnumValues new owner values)
  | type => type

def editColumnType (owner : String) : ColumnType → ColumnType
  | .simple type => .simple type
  | .complex type => .complex (symbol.editComplexType new owner type)

def editColumn (owner : String) (c : ColumnDef) : ColumnDef :=
  { c with
    name := symbol.editName new owner c.name
    type := symbol.editColumnType new owner c.type
    foreignKey := c.foreignKey.map (symbol.editForeignKey new) }

end ReferenceSymbol

/-! The walk over a mapping and its fields -/

def pairEdit (symbol : ReferenceSymbol) (new : String) (place : PairPlace) (key : String)
    (value : Node) : Node :=
  match inspectPair symbol place key value with
  | .scalar => .scalar (.text new)
  | .elements => walkForSymbol symbol new (some place.outer) true value
  | .identifiers => editIdentifiers symbol.oldName new value
  | .nothing => walkForSymbol symbol new (some place.outer) false value

section Walk
variable {symbol : ReferenceSymbol} {new : String}

theorem walk_items_map (outer : Option (List (String × Node))) (within : Bool)
    (items : List Node) :
    walkItems symbol new outer within items = items.map (walkForSymbol symbol new outer within) := by
  induction items with
  | nil => rfl
  | cons item rest ih => rw [walkItems, ih, List.map_cons]

theorem walk_array (outer : Option (List (String × Node))) (within : Bool) (items : List Node) :
    walkForSymbol symbol new outer within (.array items) =
      .array (items.map (walkForSymbol symbol new outer within)) := by
  rw [walkForSymbol, walk_items_map]

theorem walk_pairs_fields (place : PairPlace) (pairs : List (String × Node)) :
    walkPairs symbol new place false pairs = editFields (pairEdit symbol new place) pairs := by
  induction pairs with
  | nil => rfl
  | cons pair rest ih =>
    rw [walkPairs, ih]
    rfl

theorem walk_mapping (outer : Option (List (String × Node))) (pairs : List (String × Node)) :
    walkForSymbol symbol new outer false (.mapping pairs) =
      .mapping (editFields (pairEdit symbol new ⟨outer.getD pairs, outer.isNone, pairs⟩) pairs) := by
  rw [walkForSymbol, walk_pairs_fields]

theorem walk_shaped (outer : Option (List (String × Node))) :
    Shaped (walkForSymbol symbol new outer false) id where
  text s := by simp [walkForSymbol]
  scalar s other := by
    cases s with
    | text t => exact absurd rfl (other t)
    | _ => rfl
  array items := ⟨_, walk_array outer false items⟩
  mapping pairs := ⟨_, rfl⟩

/-- A hit on a scalar replaces it, else the walk goes on below. -/
theorem pair_edit_plain {key : String} (plain : key ∉ ["name", "ref_table", "ref_columns", "expr"])
    (place : PairPlace) :
    pairEdit symbol new place key = walkForSymbol symbol new (some place.outer) false := by
  simp only [List.mem_cons, List.not_mem_nil, or_false, not_or] at plain
  funext value
  cases symbol <;> simp [pairEdit, inspectPair, plain]

section Owned
variable {outer : List (String × Node)} {owner : String}

end Owned

section Still

theorem walk_still {α : Type} {read : Node → Option α} (outer : Option (List (String × Node)))
    (arrays : ∀ items, read (.array items) = none)
    (mappings : ∀ pairs, read (.mapping pairs) = none) :
    Follows (walkForSymbol symbol new outer false) read id :=
  (walk_shaped outer).still_follows arrays mappings

theorem walk_word {α : Type} (outer : Option (List (String × Node))) (table : List (String × α)) :
    Follows (walkForSymbol symbol new outer false) (readWord table) id :=
  walk_still outer (fun _ => rfl) fun _ => rfl

variable {α : Type} {read : Node → Option α} {key : String} {place : PairPlace}

theorem required_plain (plain : key ∉ ["name", "ref_table", "ref_columns", "expr"])
    (follows : Follows (walkForSymbol symbol new (some place.outer) false) read id)
    (pairs : List (String × Node)) :
    required key read (editFields (pairEdit symbol new place) pairs) =
      required key read pairs := by
  rw [← pair_edit_plain plain] at follows
  rw [required_edited follows, Option.map_id, id]

theorem optional_plain (plain : key ∉ ["name", "ref_table", "ref_columns", "expr"])
    (follows : Follows (walkForSymbol symbol new (some place.outer) false) read id)
    (pairs : List (String × Node)) :
    optional key read (editFields (pairEdit symbol new place) pairs) =
      optional key read pairs := by
  have nullable := (walk_shaped (some place.outer)).optional_follows follows
  rw [← pair_edit_plain plain] at nullable
  rw [optional_edited nullable, Option.map_id_fun, Option.map_id, id]

end Still

end Walk

end Vespertide
