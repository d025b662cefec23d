import Vespertide.Schema
import Vespertide.Support.Documents

/-!
Model documents read into tables: the keys, words and defaults of the file
format, and the spellings that are tried one after another.
-/
namespace Vespertide
open Documents

def readReferenceAction : Node → Option ReferenceAction :=
  readWord [("cascade", .cascade), ("restrict", .restrict), ("set_null", .setNull),
    ("set_default", .setDefault), ("no_action", .noAction)]

def readKeepPolicy : Node → Option KeepPolicy :=
  readWord [("first", .first), ("last", .last)]

/-! Strategies, tagged by their kind -/

def readUniqueConstraintStrategy : Node → Option UniqueConstraintStrategy :=
  readMapping ["kind", "keep"] fun pairs => do
    let _ ← required "kind" (readWord [("delete_duplicates", ())]) pairs
    let keep ← required "keep" readKeepPolicy pairs
    some (.deleteDuplicates keep)

def readPrimaryKeyAdditionStrategy : Node → Option PrimaryKeyAdditionStrategy :=
  readMapping ["kind", "keep"] fun pairs => do
    let _ ← required "kind" (readWord [("delete_duplicates", ())]) pairs
    let keep ← required "keep" readKeepPolicy pairs
    some (.deleteDuplicates keep)

def readForeignKeyOrphanStrategy : Node → Option ForeignKeyOrphanStrategy :=
  readMapping ["kind"] fun pairs =>
    required "kind"
      (readWord [("nullify_orphans", .nullifyOrphans), ("delete_orphans", .deleteOrphans)]) pairs

inductive CheckStrategyKind where
  | nullifyViolatingColumn | deleteViolatingRows

def checkStrategyKinds : List (String × CheckStrategyKind) :=
  [("nullify_violating_column", .nullifyViolatingColumn),
    ("delete_violating_rows", .deleteViolatingRows)]

def readCheckViolationStrategy : Node → Option CheckViolationStrategy :=
  readMapping ["kind"] fun pairs => do
    match ← required "kind" (readWord checkStrategyKinds) pairs with
    | .nullifyViolatingColumn =>
        let column ← readMapping ["column"] (required "column" readText) (.mapping pairs)
        some (.nullifyViolatingColumn column)
    | .deleteViolatingRows => some .deleteViolatingRows

/-! Inline declarations -/

def readPrimaryKeyDef : Node → Option PrimaryKeyDef :=
  readMapping ["auto_increment"] fun pairs => do
    let autoIncrement ← defaulted "auto_increment" readBool false pairs
    some ⟨autoIncrement⟩

def readPrimaryKeySyntax (node : Node) : Option PrimaryKeySyntax :=
  ((readBool node).map .bool).or ((readPrimaryKeyDef node).map .object)

def readStrOrBoolOrArray (node : Node) : Option StrOrBoolOrArray :=
  ((readText node).map .str).or
    (((readItems readText node).map .array).or ((readBool node).map .bool))

def readForeignKeyDef : Node → Option ForeignKeyDef :=
  readMapping ["ref_table", "ref_columns", "on_delete", "on_update", "orphan_strategy"]
    fun pairs => do
      let refTable ← required "ref_table" readText pairs
      let refColumns ← required "ref_columns" (readItems readText) pairs
      let onDelete ← optional "on_delete" readReferenceAction pairs
      let onUpdate ← optional "on_update" readReferenceAction pairs
      let orphanStrategy ←
        defaulted "orphan_strategy" readForeignKeyOrphanStrategy .default pairs
      some ⟨refTable, refColumns, onDelete, onUpdate, orphanStrategy⟩

def readReferenceSyntaxDef : Node → Option ReferenceSyntaxDef :=
  readMapping ["references", "on_delete", "on_update"] fun pairs => do
    let references ← required "references" readText pairs
    let onDelete ← optional "on_delete" readReferenceAction pairs
    let onUpdate ← optional "on_update" readReferenceAction pairs
    some ⟨references, onDelete, onUpdate⟩

def readForeignKeySyntax (node : Node) : Option ForeignKeySyntax :=
  ((readText node).map .string).or
    (((readReferenceSyntaxDef node).map .reference).or ((readForeignKeyDef node).map .object))

/-! Columns -/

def readFloat : Node → Option F64
  | .scalar (.float text) => if rendered : text ≠ "" then some ⟨text, rendered⟩ else none
  | _ => none

def readDefaultValue (node : Node) : Option DefaultValue :=
  ((readBool node).map .bool).or <| ((readInteger node).map .integer).or <|
    ((readFloat node).map .float).or ((readText node).map .string)

def readSimpleColumnType : Node → Option SimpleColumnType :=
  readWord [("small_int", .smallInt), ("integer", .integer), ("big_int", .bigInt),
    ("real", .real), ("double_precision", .doublePrecision), ("text", .text),
    ("boolean", .boolean), ("date", .date), ("time", .time), ("timestamp", .timestamp),
    ("timestamptz", .timestamptz), ("interval", .interval), ("bytea", .bytea), ("uuid", .uuid),
    ("json", .json), ("inet", .inet), ("cidr", .cidr), ("macaddr", .macaddr), ("xml", .xml)]

def readU32 : Node → Option Nat := readNatural 4294967296

def readNumValue : Node → Option NumValue :=
  readMapping ["name", "value"] fun pairs => do
    let name ← required "name" readText pairs
    let value ← required "value" readInteger pairs
    some ⟨name, value⟩

def readEnumValues (node : Node) : Option EnumValues :=
  ((readItems readText node).map .string).or ((readItems readNumValue node).map .integer)

inductive ComplexKind where
  | varchar | numeric | char | custom | enum

def complexKinds : List (String × ComplexKind) :=
  [("varchar", .varchar), ("numeric", .numeric), ("char", .char), ("custom", .custom),
    ("enum", .enum)]

def readComplexOf : ComplexKind → Node → Option ComplexColumnType
  | .varchar => readMapping ["length"] fun pairs =>
      (required "length" readU32 pairs).map .varchar
  | .numeric => readMapping ["precision", "scale"] fun pairs => do
      let precision ← required "precision" readU32 pairs
      let scale ← required "scale" readU32 pairs
      some (.numeric precision scale)
  | .char => readMapping ["length"] fun pairs => (required "length" readU32 pairs).map .char
  | .custom => readMapping ["custom_type"] fun pairs =>
      (required "custom_type" readText pairs).map .custom
  | .enum => readMapping ["name", "values"] fun pairs => do
      let name ← required "name" readText pairs
      let values ← required "values" readEnumValues pairs
      some (.enum name values)

def readComplexColumnType : Node → Option ComplexColumnType :=
  readMapping ["kind"] fun pairs => do
    let kind ← required "kind" (readWord complexKinds) pairs
    readComplexOf kind (.mapping pairs)

def readColumnType (node : Node) : Option ColumnType :=
  ((readSimpleColumnType node).map .simple).or ((readComplexColumnType node).map .complex)

def readColumnDef : Node → Option ColumnDef :=
  readMapping ["name", "type", "nullable", "default", "comment", "primary_key", "unique", "index",
      "foreign_key"] fun pairs => do
    let name ← required "name" readText pairs
    let type ← required "type" readColumnType pairs
    let nullable ← required "nullable" readBool pairs
    let default ← optional "default" readDefaultValue pairs
    let comment ← optional "comment" readText pairs
    let primaryKey ← optional "primary_key" readPrimaryKeySyntax pairs
    let unique ← optional "unique" readStrOrBoolOrArray pairs
    let index ← optional "index" readStrOrBoolOrArray pairs
    let foreignKey ← optional "foreign_key" readForeignKeySyntax pairs
    some ⟨name, type, nullable, default, comment, primaryKey, unique, index, foreignKey⟩

/-! Constraints, tagged by their type -/

inductive ConstraintKind where
  | primaryKey | unique | foreignKey | check | index

def constraintKinds : List (String × ConstraintKind) :=
  [("primary_key", .primaryKey), ("unique", .unique), ("foreign_key", .foreignKey),
    ("check", .check), ("index", .index)]

def readConstraintOf : ConstraintKind → Node → Option TableConstraint
  | .primaryKey => readMapping ["auto_increment", "columns", "strategy"] fun pairs => do
      let autoIncrement ← defaulted "auto_increment" readBool false pairs
      let columns ← required "columns" (readItems readText) pairs
      let strategy ← defaulted "strategy" readPrimaryKeyAdditionStrategy .default pairs
      some (.primaryKey autoIncrement columns strategy)
  | .unique => readMapping ["name", "columns", "strategy"] fun pairs => do
      let name ← optional "name" readText pairs
      let columns ← required "columns" (readItems readText) pairs
      let strategy ← defaulted "strategy" readUniqueConstraintStrategy .default pairs
      some (.unique name columns strategy)
  | .foreignKey => readMapping ["name", "columns", "ref_table", "ref_columns", "on_delete",
      "on_update", "orphan_strategy"] fun pairs => do
      let name ← optional "name" readText pairs
      let columns ← required "columns" (readItems readText) pairs
      let refTable ← required "ref_table" readText pairs
      let refColumns ← required "ref_columns" (readItems readText) pairs
      let onDelete ← optional "on_delete" readReferenceAction pairs
      let onUpdate ← optional "on_update" readReferenceAction pairs
      let orphanStrategy ←
        defaulted "orphan_strategy" readForeignKeyOrphanStrategy .default pairs
      some (.foreignKey name columns refTable refColumns onDelete onUpdate orphanStrategy)
  | .check => readMapping ["name", "expr", "strategy"] fun pairs => do
      let name ← required "name" readText pairs
      let expr ← required "expr" readText pairs
      let strategy ← defaulted "strategy" readCheckViolationStrategy .deleteViolatingRows pairs
      some (.check name expr strategy)
  | .index => readMapping ["name", "columns"] fun pairs => do
      let name ← optional "name" readText pairs
      let columns ← required "columns" (readItems readText) pairs
      some (.index name columns)

def readTableConstraint : Node → Option TableConstraint :=
  readMapping ["type"] fun pairs => do
    let kind ← required "type" (readWord constraintKinds) pairs
    readConstraintOf kind (.mapping pairs)

/-! Tables -/

def readTableDef : Node → Option TableDef :=
  readMapping ["name", "description", "columns", "constraints"] fun pairs => do
    let name ← required "name" readText pairs
    let description ← optional "description" readText pairs
    let columns ← required "columns" (readItems readColumnDef) pairs
    let constraints ← defaulted "constraints" (readItems readTableConstraint) [] pairs
    some ⟨name, description, columns, constraints⟩

/-- The schema of a set of documents, one table in each. -/
def readSchema (docs : List Node) : Option (List TableDef) := docs.mapM readTableDef

end Vespertide
