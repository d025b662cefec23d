import Vespertide.SkippedPairs

/-!
The rename of a table or a column in a schema, everywhere it is named, and when
the editor's rename of the documents is read as just that.
-/
namespace Vespertide
open Documents

/-! The schema's rename -/

namespace ReferenceSymbol
variable (symbol : ReferenceSymbol) (new : String)

def renameTableName (s : String) : String := if symbol = .table s then new else s

def renameColumnName (owner s : String) : String := if symbol = .column owner s then new else s

def renameReference (reference : String) : String :=
  match parseForeignKeyReference "" reference with
  | .ok (refTable, [refColumn]) =>
      symbol.renameTableName new refTable ++ "." ++ symbol.renameColumnName new refTable refColumn
  | _ => reference

def renameForeignKey : ForeignKeySyntax → ForeignKeySyntax
  | .string s => .string (symbol.renameReference new s)
  | .reference r => .reference { r with references := symbol.renameReference new r.references }
  | .object d => .object { d with
      refTable := symbol.renameTableName new d.refTable
      refColumns := d.refColumns.map (symbol.renameColumnName new d.refTable) }

def renameColumn (owner : String) (c : ColumnDef) : ColumnDef :=
  { c with
    name := symbol.renameColumnName new owner c.name
    foreignKey := c.foreignKey.map (symbol.renameForeignKey new) }

def renameExpr (owner expr : String) : String :=
  match symbol with
  | .table _ => expr
  | .column target name => if target = owner then renameNamed name new expr else expr

def renameCheckStrategy (owner : String) : CheckViolationStrategy → CheckViolationStrategy
  | .nullifyViolatingColumn c => .nullifyViolatingColumn (symbol.renameColumnName new owner c)
  | .deleteViolatingRows => .deleteViolatingRows

def renameConstraint (owner : String) : TableConstraint → TableConstraint
  | .primaryKey autoIncrement columns strategy =>
      .primaryKey autoIncrement (columns.map (symbol.renameColumnName new owner)) strategy
  | .unique name columns strategy =>
      .unique name (columns.map (symbol.renameColumnName new owner)) strategy
  | .foreignKey name columns refTable refColumns onDelete onUpdate orphanStrategy =>
      .foreignKey name (columns.map (symbol.renameColumnName new owner))
        (symbol.renameTableName new refTable)
        (refColumns.map (symbol.renameColumnName new refTable)) onDelete onUpdate orphanStrategy
  | .check name expr strategy =>
      .check name (symbol.renameExpr new owner expr) (symbol.renameCheckStrategy new owner strategy)
  | .index name columns => .index name (columns.map (symbol.renameColumnName new owner))

def renameTable (t : TableDef) : TableDef :=
  { t with
    name := symbol.renameTableName new t.name
    columns := t.columns.map (symbol.renameColumn new t.name)
    constraints := t.constraints.map (symbol.renameConstraint new t.name) }

end ReferenceSymbol

/-! Where the editor finds the places that name the symbol, and nothing else -/

/-- The names a column's type brings of its own. -/
def ColumnType.labels : ColumnType → List String
  | .complex (.enum name (.integer values)) => name :: values.map NumValue.name
  | .complex (.enum name (.string _)) => [name]
  | _ => []

def TableConstraint.checkExpr : TableConstraint → Option String
  | .check _ expr _ => some expr
  | _ => none

def TableConstraint.nullified : TableConstraint → Option String
  | .check _ _ (.nullifyViolatingColumn column) => some column
  | _ => none

namespace ReferenceSymbol

section Parts
variable {symbol : ReferenceSymbol} {new : String} (apart : symbol.oldName ≠ new)

include apart

end Parts

def DeclaredIn (symbol : ReferenceSymbol) (schema : List TableDef) : Prop :=
  match symbol with
  | .table name => ∃ t ∈ schema, t.name = name
  | .column target name => ∃ t ∈ schema, t.name = target ∧ name ∈ t.columnNames

end ReferenceSymbol

/-! Every declared table and column has a place to put the cursor -/

theorem read_mapping_some {α : Type} {known : List String}
    {build : List (String × Node) → Option α} {node : Node} {a : α}
    (read : readMapping known build node = some a) :
    ∃ pairs, node = .mapping pairs ∧ build pairs = some a := by
  cases node with
  | scalar s => cases read
  | array items => cases read
  | mapping pairs =>
    rw [readMapping] at read
    split at read
    · exact ⟨pairs, rfl, read⟩
    · cases read

theorem required_at {α : Type} {key : String} {read : Node → Option α}
    {pairs : List (String × Node)} {a : α} (done : required key read pairs = some a) :
    ∃ (i : Nat) (node : Node), pairs[i]? = some (key, node) ∧ read node = some a := by
  obtain ⟨node, there, read_there⟩ := Option.bind_eq_some_iff.mp done
  obtain ⟨before, after, split, -⟩ := List.lookup_eq_some_iff.mp there
  have mem : (key, node) ∈ pairs := by simp [split]
  obtain ⟨i, here⟩ := List.mem_iff_getElem?.mp mem
  exact ⟨i, node, here, read_there⟩

theorem read_text_some {node : Node} {s : String} (read : readText node = some s) :
    node = .scalar (.text s) := by
  cases node with
  | scalar scalar => cases scalar <;> cases read; rfl
  | array items => cases read
  | mapping pairs => cases read

theorem read_table_parts {doc : Node} {t : TableDef} (read : readTableDef doc = some t) :
    ∃ pairs, doc = .mapping pairs ∧ required "name" readText pairs = some t.name ∧
      required "columns" (readItems readColumnDef) pairs = some t.columns := by
  obtain ⟨pairs, rfl, built⟩ := read_mapping_some read
  obtain ⟨name, named, built⟩ := Option.bind_eq_some_iff.mp built
  obtain ⟨description, -, built⟩ := Option.bind_eq_some_iff.mp built
  obtain ⟨columns, listed, built⟩ := Option.bind_eq_some_iff.mp built
  obtain ⟨constraints, -, built⟩ := Option.bind_eq_some_iff.mp built
  cases built
  exact ⟨pairs, rfl, named, listed⟩

theorem read_column_name {node : Node} {c : ColumnDef} (read : readColumnDef node = some c) :
    ∃ pairs, node = .mapping pairs ∧ required "name" readText pairs = some c.name := by
  obtain ⟨pairs, rfl, built⟩ := read_mapping_some read
  obtain ⟨name, named, built⟩ := Option.bind_eq_some_iff.mp built
  refine ⟨pairs, rfl, named.trans ?_⟩
  obtain ⟨type, -, built⟩ := Option.bind_eq_some_iff.mp built
  obtain ⟨nullable, -, built⟩ := Option.bind_eq_some_iff.mp built
  obtain ⟨default, -, built⟩ := Option.bind_eq_some_iff.mp built
  obtain ⟨comment, -, built⟩ := Option.bind_eq_some_iff.mp built
  obtain ⟨primaryKey, -, built⟩ := Option.bind_eq_some_iff.mp built
  obtain ⟨unique, -, built⟩ := Option.bind_eq_some_iff.mp built
  obtain ⟨index, -, built⟩ := Option.bind_eq_some_iff.mp built
  obtain ⟨foreignKey, -, built⟩ := Option.bind_eq_some_iff.mp built
  cases built
  rfl

theorem declared_has_cursor {docs : List Node} {schema : List TableDef}
    {symbol : ReferenceSymbol} (read : readSchema docs = some schema)
    (declared : symbol.DeclaredIn schema) (written : symbol.oldName ≠ "") :
    ∃ cursor, resolveSymbol docs cursor = some symbol := by
  have placed : ∀ t ∈ schema, ∃ (d : Nat) (doc : Node), docs[d]? = some doc ∧ readTableDef doc = some t := by
    intro t mem
    obtain ⟨doc, listed, read_doc⟩ := (Results.mem_map_m read).mp mem
    obtain ⟨d, here⟩ := List.mem_iff_getElem?.mp listed
    exact ⟨d, doc, here, read_doc⟩
  cases symbol with
  | table name =>
    obtain ⟨t, mem, rfl⟩ := declared
    obtain ⟨d, doc, here, read_doc⟩ := placed t mem
    obtain ⟨pairs, rfl, named, -⟩ := read_table_parts read_doc
    obtain ⟨i, node, at_i, text⟩ := required_at named
    obtain rfl := read_text_some text
    have filled : t.name ≠ "" := written
    refine ⟨⟨d, [i], 0⟩, ?_⟩
    simp [resolveSymbol, here, scalarAt, at_i, filled]
  | column target name =>
    obtain ⟨t, mem, rfl, listed⟩ := declared
    obtain ⟨d, doc, here, read_doc⟩ := placed t mem
    obtain ⟨pairs, rfl, named, columns⟩ := read_table_parts read_doc
    obtain ⟨c, in_columns, rfl⟩ := List.mem_map.mp listed
    obtain ⟨i, node, at_i, items⟩ := required_at columns
    obtain ⟨texts, rfl, each⟩ : ∃ nodes, node = .array nodes ∧
        nodes.mapM readColumnDef = some t.columns := by
      cases node with
      | array nodes => exact ⟨nodes, rfl, items⟩
      | scalar s => cases items
      | mapping pairs => cases items
    obtain ⟨item, in_items, read_item⟩ := (Results.mem_map_m each).mp in_columns
    obtain ⟨j, at_j⟩ := List.mem_iff_getElem?.mp in_items
    obtain ⟨fields, rfl, column_named⟩ := read_column_name read_item
    obtain ⟨k, value, at_k, text⟩ := required_at column_named
    obtain rfl := read_text_some text
    have filled : c.name ≠ "" := written
    have owner : directChildScalar pairs "name" = some t.name := named
    refine ⟨⟨d, [i, j, k], 0⟩, ?_⟩
    simp [resolveSymbol, here, scalarAt, at_i, at_j, at_k, filled, PairPlace.outerTableName, owner]

end Vespertide
