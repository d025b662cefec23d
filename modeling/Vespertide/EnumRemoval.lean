import Vespertide.EnumBalance
import Vespertide.PlanValidation
import Mathlib.Data.Multiset.MapFold

/-!
The rows of a string enum that gives up values, on PostgreSQL. The replacements
are written while the column still has its old type, so a value of the new type
alone cannot be one, though it is offered. The default is put back under the new
type, so it must be a label of that one.
-/
namespace Vespertide
open Registry

/-! The database -/

/-- A column of an enum type: the labels of each type, the type in force, and for
    each row its label and whatever else it holds. -/
structure EnumColumn (ρ : Type) where
  types : Names String (List String)
  columnType : String
  rows : Multiset (Option String × ρ)

def EnumColumn.labels {ρ : Type} (db : EnumColumn ρ) : List String :=
  (db.types db.columnType).getD []

/-- The expression of `ALTER COLUMN column SET DEFAULT expression`. -/
def setDefault (table column sql : String) : Option String :=
  (Text.after (buildPgAlterColumnSql table column "SET DEFAULT ").toList sql.toList).map
    String.ofList

def literalLabel (expr : String) : Option String :=
  let label := String.ofList (Text.unquote '\'' expr.toList.tail)
  if sqlLiteral label = expr then some label else none

section Statements
variable {ρ : Type} (takes : String → List String → String → Bool) (table column : String)

/-- A literal must be a label of the type in force; `takes` is what PostgreSQL says of any other
    expression for a column of a type with these labels. -/
def takesDefault (type : String) (labels : List String) (expr : String) : Bool :=
  match literalLabel expr with
  | some label => label ∈ labels
  | none => takes type labels expr

end Statements

/-! The fill map -/

/-- The default that is put back after the change is a label of the new type, or another
    expression that is taken for it. -/
def DefaultSurvives (takes : String → List String → String → Bool) (table newName : String)
    (newValues : List String) (default : Option DefaultValue) : Prop :=
  ∀ value ∈ default, takesDefault takes (buildEnumTypeName table newName) newValues
    (normalizeEnumDefault (.complex (.enum newName (.string newValues))) value.toSql) = true

instance (takes : String → List String → String → Bool) (table newName : String)
    (newValues : List String) (default : Option DefaultValue) :
    Decidable (DefaultSurvives takes table newName newValues default) :=
  inferInstanceAs (Decidable (∀ _ ∈ default, _))

/-! Reading the texts back -/

/-- A default that is rendered as the literal of its label survives as long as the label. -/
theorem label_survives_iff (takes : String → List String → String → Bool) (table : String)
    {newName label : String} {newValues : List String} {value : DefaultValue}
    (rendered : normalizeEnumDefault (.complex (.enum newName (.string newValues))) value.toSql =
      sqlLiteral label) :
    DefaultSurvives takes table newName newValues (some value) ↔ label ∈ newValues := by
  have apart : ([] : List Char).head? ≠ some '\'' := by simp
  have read := Text.unquote_quote label.toList apart
  rw [List.append_nil] at read
  have literal : literalLabel (sqlLiteral label) = some label := by
    simp only [literalLabel, literal_characters, read, String.ofList_toList, ↓reduceIte]
  simp [DefaultSurvives, rendered, takesDefault, literal]

section Reaching
variable {oldValues newValues : List String} {fillWith : List (String × String)}
  (keys : (fillWith.map Prod.fst).Nodup)
include keys

variable (answered : ∀ r ∈ oldValues, r ∉ newValues → ∃ v ∈ newValues, (r, v) ∈ fillWith)
include answered

end Reaching

/-! The statements -/

section Runs
variable {ρ : Type} {takes : String → List String → String → Bool} {table column : String}

end Runs

/-! The change as it is planned -/

section Planned
variable {schema : Schema} {pending : List TableConstraint} {table column oldName newName : String}
  {c : ColumnDef} {oldValues newValues : List String} {fillWith : List (String × String)}
  {strategy : Option NarrowingStrategy} {timezone : Option String} {queries : List BuiltQuery}
  (found : findColumnInSchema schema table column = some c)
  (type : c.type = .complex (.enum oldName (.string oldValues)))
include found type

end Planned

/-! An order's status -/

end Vespertide
