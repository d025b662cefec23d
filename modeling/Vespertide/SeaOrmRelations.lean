import Vespertide.RelationNames
import Vespertide.Support.KeyedView

/-!
The relation fields of SeaORM entities. Forward relations are resolved through
chains of foreign keys; both sides count the relations to an entity to decide
whether a relation needs a name of its own. Indexing an empty list of columns
aborts, which is no result here.
-/
namespace Vespertide

/-! Names -/

def rustKeywords : List String :=
  ["as", "async", "await", "break", "const", "continue", "crate", "dyn", "else", "enum", "extern",
   "false", "fn", "for", "if", "impl", "in", "let", "loop", "match", "mod", "move", "mut", "pub",
   "ref", "return", "self", "Self", "static", "struct", "super", "trait", "true", "type",
   "unsafe", "use", "where", "while",
   "abstract", "become", "box", "do", "final", "macro", "override", "priv", "try", "typeof",
   "unsized", "virtual", "yield"]

def sanitizeFieldName (name : String) : String :=
  if name = "" then "_col"
  else
    let result := sanitizeIdentifier name .letter
    if result ∈ rustKeywords then "r#" ++ result else result

def sanitizeTypeName (name : String) : String :=
  match (sanitizeIdentifier name .letter).toList with
  | [] => ""
  | first :: rest => String.ofList (first.toUpper :: rest)

def seaormModuleName (name : String) : String := sanitizeIdentifier name .letter

def uniqueName (base : String) (used : List String) : String :=
  if base ∉ used then base
  else FreshName.first (fun i => base ++ "_" ++ toString i) used 1

def toSnakeCase (s : String) : String :=
  String.ofList (s.toList.zipIdx.flatMap fun (c, i) =>
    if 0 < i ∧ c.isUpper then ['_', c.toLower] else [c.toLower])

def pluralize (name : String) : String :=
  let l := name.toList
  let vowelBefore := (l.reverse[1]?).any fun c => c ∈ ['a', 'e', 'o', 'u']
  match l.getLast? with
  | some 's' => name
  | some 'y' => if vowelBefore then name ++ "s" else String.ofList l.dropLast ++ "ies"
  | _ => name ++ "s"

def fkAttrValue (cols : List String) : String :=
  match cols with
  | [only] => sanitizeFieldName only
  | cols => "(" ++ ", ".intercalate (cols.map sanitizeFieldName) ++ ")"

/-- From the first column alone. -/
def generateRelationEnumName (columns : List String) : Option String :=
  columns.head?.map fun first => sanitizeTypeName (toPascalCase ((stripSuffix "_id" first).getD first))

def uniqueRelationEnumName (preferred sourceTable baseRelationEnum : String) (used : List String) :
    String :=
  let pre := sanitizeTypeName (toPascalCase sourceTable) ++ baseRelationEnum
  if preferred ∉ used then preferred
  else if pre ∉ used then pre
  else FreshName.first (fun index => pre ++ toString index) used 2

def inferFieldNameFromFkColumn (lowercase : String → String)
    (fkColumn tableName referenced : String) : String :=
  let withoutSuffix := (stripSuffix ("_" ++ referenced) fkColumn <|> stripSuffix "_id" fkColumn <|>
    stripSuffix "_idx" fkColumn).getD fkColumn
  let sanitized := sanitizeFieldName withoutSuffix
  let lower := lowercase sanitized
  if lower = lowercase referenced ∨ lower = lowercase tableName ++ lowercase referenced then
    sanitizeFieldName tableName
  else if lower = lowercase tableName then sanitizeFieldName tableName
  else sanitized

/-! Chains of foreign keys -/

section Resolve
variable (schema : List TableDef)

/-- A pass-through table is followed until its column is no foreign key, or until it comes
    back to a column that was visited. -/
def resolveFkTargetInner : Nat → String → List String → List (String × String) →
    Option (String × List String)
  | 0, refTable, refColumns, _ => some (refTable, refColumns)
  | fuel + 1, refTable, [refCol], visited =>
      match KeyedView.get TableDef.name schema refTable with
      | none => some (refTable, [refCol])
      | some target =>
          match (foreignKeys target).find? (·.columns = [refCol]) with
          | none => some (refTable, [refCol])
          | some next =>
              match next.refColumns with
              | [] => none
              | nextCol :: _ =>
                  if ((refTable, refCol) :: visited).contains (next.refTable, nextCol) then
                    some (refTable, [refCol])
                  else resolveFkTargetInner fuel next.refTable next.refColumns
                    ((refTable, refCol) :: visited)
  | _ + 1, refTable, refColumns, _ => some (refTable, refColumns)

def passedKeys : List (String × String) :=
  schema.flatMap fun t => (foreignKeys t).map fun fk => (t.name, fk.columns.headD "")

def resolveFkTarget (fk : TableForeignKey) : Option (String × List String) :=
  resolveFkTargetInner schema ((passedKeys schema).length + 1) fk.refTable fk.refColumns []

structure ForwardRelation where
  fk : TableForeignKey
  resolvedTable : String
  resolvedColumns : List String

def resolveTableFks (t : TableDef) : Option (List ForwardRelation) :=
  (foreignKeys t).mapM fun fk => (resolveFkTarget schema fk).map fun (table, columns) =>
    { fk, resolvedTable := table, resolvedColumns := columns }

end Resolve

/-! Tables that refer to this one -/

/-- Table-level and inline, without repeats. -/
def primaryKeyColumns (t : TableDef) : List String :=
  ((t.constraints.filter (·.isPrimaryKey)).flatMap (·.columns) ++
    (t.columns.filter fun c => match c.primaryKey with
      | some (.bool b) => b
      | some (.object _) => true
      | none => false).map (·.name)).dedup

def singleColumnUniques (t : TableDef) : List String :=
  t.constraints.filterMap fun
    | .unique _ [column] _ => some column
    | _ => none

/-- The other tables that a junction of the current table links it to. -/
def junctionTargets (current junction : TableDef) (junctionPk : List String) :
    Option (List String) :=
  let fks := foreignKeys junction
  if junctionPk.length < 2 then none
  else if fks.length < 2 ∨ ¬ fks.all fun fk => fk.columns.all (· ∈ junctionPk) then none
  else if fks.any (·.refTable = current.name) then
    some ((fks.filter (·.refTable ≠ current.name)).map (·.refTable))
  else none

section Reverse
variable (schema : List TableDef) (t : TableDef)

def collectReverseRelationTargets : List String :=
  schema.flatMap fun other =>
    if other.name = t.name then []
    else match junctionTargets t other (primaryKeyColumns other) with
      | some targets => other.name :: targets.filter fun target => schema.any (·.name = target)
      | none => ((foreignKeys other).filter (·.refTable = t.name)).map fun _ => other.name

structure ReverseRelation where
  /-- the place of the foreign key, for a direct relation -/
  source : Option (Nat × Nat)
  targetEntity : String
  isOneToOne : Bool
  fieldBase : String
  baseRelationEnum : String
  sourceTable : String
  hasMultipleFks : Bool
  via : Option String
  viaRel : Option String
  isM2m : Bool

def manyToManyRelations (junction : TableDef) (targets : List String) : List ReverseRelation :=
  let junctionPascal := toPascalCase junction.name
  { source := none, targetEntity := junction.name, isOneToOne := false,
    fieldBase := pluralize (sanitizeFieldName junction.name),
    baseRelationEnum := sanitizeTypeName junctionPascal, sourceTable := junction.name,
    hasMultipleFks := false, via := none, viaRel := none, isM2m := false } ::
  (targets.filter fun target => schema.any (·.name = target)).map fun refTable =>
    { source := none, targetEntity := refTable, isOneToOne := false,
      fieldBase := pluralize (sanitizeFieldName refTable) ++ "_via_" ++
        sanitizeFieldName junction.name,
      baseRelationEnum := sanitizeTypeName (toPascalCase refTable ++ "Via" ++ junctionPascal),
      sourceTable := junction.name, hasMultipleFks := false, via := some junction.name,
      viaRel := none, isM2m := true }

/-- Counted under the name of the other table. -/
def hasMultipleFks (other : TableDef) : Bool :=
  1 < ((schema.filter (·.name = other.name)).flatMap foreignKeys).countP (·.refTable = t.name)

def directRelation (other : TableDef) (position : Nat) (fk : TableForeignKey) :
    Option ReverseRelation := do
  let pk := primaryKeyColumns other
  let isOneToOne : Bool := match fk.columns with
    | [col] => (pk.length = 1 ∧ col ∈ pk) ∨ col ∈ singleColumnUniques other
    | columns => columns.length = pk.length ∧ ∀ c ∈ columns, c ∈ pk
  let hasMultipleFks := hasMultipleFks schema t other
  let baseRelationEnum ← generateRelationEnumName fk.columns
  let fieldBase :=
    if hasMultipleFks then
      let lowercaseEnum := sanitizeFieldName (toSnakeCase baseRelationEnum)
      if isOneToOne then lowercaseEnum
      else lowercaseEnum ++ "_" ++ pluralize (sanitizeFieldName other.name)
    else if isOneToOne then sanitizeFieldName other.name
    else pluralize (sanitizeFieldName other.name)
  return { source := some (position, fk.constraintIdx), targetEntity := other.name, isOneToOne,
           fieldBase, baseRelationEnum, sourceTable := other.name, hasMultipleFks, via := none,
           viaRel := some baseRelationEnum, isM2m := false }

/-- A junction gives its relations unless all its keys point back at the table. -/
def reverseRelationsOf (other : TableDef) (position : Nat) : Option (List ReverseRelation) :=
  if other.name = t.name then some []
  else match junctionTargets t other (primaryKeyColumns other) with
    | some (target :: targets) => some (manyToManyRelations schema other (target :: targets))
    | _ => ((foreignKeys other).filter (·.refTable = t.name)).mapM
        (directRelation schema t other position)

def reverseRelations : Option (List ReverseRelation) :=
  (schema.zipIdx.mapM fun (other, position) => reverseRelationsOf schema t other position).map
    List.flatten

end Reverse

/-! The fields -/

structure EntityField where
  source : Option (Nat × Nat)
  fieldName : String
  relationType : String
  entity : String
  relationEnum : Option String
  via : Option String
  viaRel : Option String
  fromTo : Option (String × String)

def EntityField.attr (f : EntityField) : String :=
  let arg (key : String) (value : Option String) : List String :=
    (value.map fun v => key ++ " = \"" ++ v ++ "\"").toList
  "    #[sea_orm(" ++ ", ".intercalate (f.relationType :: arg "relation_enum" f.relationEnum ++
    arg "via_rel" f.viaRel ++ arg "via" f.via ++
    arg "from" (f.fromTo.map (·.1)) ++ arg "to" (f.fromTo.map (·.2))) ++ ")]"

section Fields
variable (lowercase : String → String) (schema : List TableDef) (position : Nat) (t : TableDef)

def typeName : String := sanitizeTypeName (toPascalCase t.name)

/-- A second relation of the same base takes the table's name; a third is not told apart. -/
def forwardEnums (needsEnum : ForwardRelation → Bool) (ending : String) :
    List String → List ForwardRelation → Option (List (Option String))
  | _, [] => some []
  | used, rel :: rest =>
      if needsEnum rel then do
        let base ← generateRelationEnumName rel.fk.columns
        let name := if base ∈ used then base ++ ending else base
        let names ← forwardEnums needsEnum ending (used ++ [name]) rest
        return some name :: names
      else do
        let names ← forwardEnums needsEnum ending used rest
        return none :: names

def forwardEntityField (rel : ForwardRelation) (relationEnum : Option String) : EntityField where
  source := some (position, rel.fk.constraintIdx)
  fieldName := match rel.fk.columns with
    | [column] => inferFieldNameFromFkColumn lowercase column rel.resolvedTable
        (rel.resolvedColumns.headD "")
    | _ => sanitizeFieldName rel.resolvedTable
  relationType := "belongs_to"
  entity := rel.resolvedTable
  relationEnum := relationEnum
  via := none
  viaRel := none
  fromTo := some (fkAttrValue rel.fk.columns, fkAttrValue rel.resolvedColumns)

def preferredEnum (rel : ReverseRelation) (used : List String) : String :=
  if rel.isM2m then rel.baseRelationEnum
  else
    let baseEnum := sanitizeTypeName (toPascalCase (rel.via.getD rel.sourceTable))
    if baseEnum ∈ used then rel.baseRelationEnum else baseEnum

def reverseEnums (needsEnum : ReverseRelation → Bool) :
    List String → List ReverseRelation → List (Option String)
  | _, [] => []
  | used, rel :: rest =>
      if needsEnum rel then
        let name := uniqueRelationEnumName (preferredEnum rel used) rel.sourceTable
          rel.baseRelationEnum used
        some name :: reverseEnums needsEnum (used ++ [name]) rest
      else none :: reverseEnums needsEnum used rest

/-- Only a named relation says which relation of the source it is the other side of. -/
def reverseEntityField (rel : ReverseRelation) (relationEnum : Option String) : EntityField where
  source := rel.source
  fieldName := rel.fieldBase
  relationType := if rel.isOneToOne then "has_one" else "has_many"
  entity := rel.targetEntity
  relationEnum := relationEnum
  via := if relationEnum.isSome ∧ rel.viaRel.isSome then none else rel.via.map seaormModuleName
  viaRel := if relationEnum.isSome then rel.viaRel else none
  fromTo := none

def uniqueFields : List String → List EntityField → List EntityField
  | _, [] => []
  | used, f :: rest =>
      let name := uniqueName f.fieldName used
      { f with fieldName := name } :: uniqueFields (name :: used) rest

/-- The entities that a relation of the table leads to, each as often as it does. -/
def targetEntities (forward : List ForwardRelation) : List String :=
  forward.map (·.resolvedTable) ++ collectReverseRelationTargets schema t

def forwardNeedsEnum (forward : List ForwardRelation) (rel : ForwardRelation) : Bool :=
  1 < (forward.map (·.resolvedTable)).count rel.resolvedTable ∨
    1 < (targetEntities schema t forward).count rel.resolvedTable

def reverseNeedsEnum (forward : List ForwardRelation) (rel : ReverseRelation) : Bool :=
  rel.hasMultipleFks ∨ 1 < (targetEntities schema t forward).count rel.targetEntity

def relationFieldDefs : Option (List EntityField) := do
  let forward ← resolveTableFks schema t
  let forwardNames ← forwardEnums (forwardNeedsEnum schema t forward) (typeName t) [] forward
  let reverse ← reverseRelations schema t
  let reverseNames := reverseEnums (reverseNeedsEnum schema t forward)
    forwardNames.reduceOption reverse
  return uniqueFields (t.columns.map fun column => sanitizeFieldName column.name)
    (List.zipWith (forwardEntityField lowercase position) forward forwardNames ++
      List.zipWith reverseEntityField reverse reverseNames)

end Fields

/-- The relation fields of every entity, if none of them aborts. -/
def renderEntities (lowercase : String → String) (schema : List TableDef) :
    Option (List (List EntityField)) :=
  schema.zipIdx.mapM fun (t, position) => relationFieldDefs lowercase schema position t

end Vespertide
