import Vespertide.Schema
import Mathlib.Data.List.Sort

/-!
Names of constraints and indexes: `{prefix}{table}__{key}`, the key being the
declared name or the sorted columns joined by an underscore.
-/
namespace Vespertide

def writeSortedColumns (columns : List String) : String :=
  "_".intercalate (columns.insertionSort (· ≤ ·))

def buildConstraintName (kind table : String) (columns : List String) (key : Option String) :
    String :=
  match key with
  | some k => kind ++ table ++ "__" ++ k
  | none => kind ++ table ++ "__" ++ writeSortedColumns columns

def buildIndexName (table : String) (columns : List String) (key : Option String) : String :=
  buildConstraintName "ix_" table columns key

def buildUniqueConstraintName (table : String) (columns : List String) (key : Option String) :
    String :=
  buildConstraintName "uq_" table columns key

def buildForeignKeyName (table : String) (columns : List String) (key : Option String) : String :=
  buildConstraintName "fk_" table columns key

def buildCheckConstraintName (table column : String) : String :=
  "chk_" ++ table ++ "__" ++ column

def buildEnumTypeName (table enumName : String) : String := table ++ "_" ++ enumName

end Vespertide
