import Vespertide.Schema
import Vespertide.Support.Text

/-!
Promotion of inline column declarations to table-level constraints. Each pass
only appends, and it appends a constraint only when none of the same identity
is there yet, so the explicit constraints stay a prefix of the result.
-/
namespace Vespertide

/-- Group name to the columns declared into it; the map is read by key only. -/
abbrev ColumnGroups := List (String × List String)

structure GroupState where
  groups : ColumnGroups
  order : List String
  deriving DecidableEq, Repr

def appendToGroup (groups : ColumnGroups) (groupName columnName : String) : ColumnGroups :=
  match groups with
  | [] => [(groupName, [columnName])]
  | (g, cols) :: rest =>
      if g = groupName then (g, cols ++ [columnName]) :: rest
      else (g, cols) :: appendToGroup rest groupName columnName

def pushGroupedColumn (s : GroupState) (groupName columnName : String) : GroupState :=
  let firstSighting := s.groups.lookup groupName = none
  { groups := appendToGroup s.groups groupName columnName
    order := if firstSighting then s.order ++ [groupName] else s.order }

def autoPrefix : String := "__auto_"

def generatedNameToConstraintName (name : String) : Option String :=
  if autoPrefix.toList.isPrefixOf name.toList then none else some name

/-! Primary key -/

def pushPrimaryKeyColumn (acc : List String × Bool) (col : ColumnDef) : List String × Bool :=
  match col.primaryKey with
  | some (.bool true) => (acc.1 ++ [col.name], acc.2)
  | some (.bool false) => acc
  | some (.object pkDef) => (acc.1 ++ [col.name], acc.2 || pkDef.autoIncrement)
  | none => acc

def collectPrimaryKeyColumns (columns : List ColumnDef) : List String × Bool :=
  columns.foldl pushPrimaryKeyColumn ([], false)

def ColumnDef.declaresKey (c : ColumnDef) : Bool :=
  match c.primaryKey with
  | some (.bool b) => b
  | some (.object _) => true
  | none => false

theorem foldl_push_primary_key (columns : List ColumnDef) (acc : List String × Bool) :
    (columns.foldl pushPrimaryKeyColumn acc).1 =
      acc.1 ++ (columns.filter (·.declaresKey)).map (·.name) := by
  induction columns generalizing acc with
  | nil => simp
  | cons col rest ih =>
    rw [List.foldl_cons, ih]
    rcases h : col.primaryKey with _ | (_ | _) | _ <;>
      simp [pushPrimaryKeyColumn, ColumnDef.declaresKey, h]

theorem collect_primary_key_columns (columns : List ColumnDef) :
    (collectPrimaryKeyColumns columns).1 = (columns.filter (·.declaresKey)).map (·.name) := by
  rw [collectPrimaryKeyColumns, foldl_push_primary_key, List.nil_append]

def hasPrimaryKeyConstraint (constraints : List TableConstraint) : Bool :=
  constraints.any (·.isPrimaryKey)

theorem has_primary_key_iff {β : Type} {f : TableConstraint → Option β}
    (tells : ∀ c, f c = none ↔ c.isPrimaryKey = false) (constraints : List TableConstraint) :
    hasPrimaryKeyConstraint constraints = true ↔ constraints.findSome? f ≠ none := by
  rw [hasPrimaryKeyConstraint, ← Bool.not_eq_false, List.any_eq_false, ne_eq,
    List.findSome?_eq_none_iff]
  simp only [tells, Bool.not_eq_true]

def addPrimaryKeyConstraint (columns : List ColumnDef) (constraints : List TableConstraint) :
    List TableConstraint :=
  let (pkColumns, pkAutoIncrement) := collectPrimaryKeyColumns columns
  if pkColumns = [] ∨ hasPrimaryKeyConstraint constraints then constraints
  else constraints ++ [.primaryKey pkAutoIncrement pkColumns .default]

/-! Unique -/

def declaredGroups (columnName : String) : Option StrOrBoolOrArray → List String
  | some (.str name) => [name]
  | some (.bool true) => [autoPrefix ++ columnName]
  | some (.bool false) => []
  | some (.array names) => names
  | none => []

def collectUniqueGroups (columns : List ColumnDef) : GroupState :=
  columns.foldl (fun s col =>
    (declaredGroups col.name col.unique).foldl
      (fun s group => pushGroupedColumn s group col.name) s) ⟨[], []⟩

def uniqueConstraintExists (constraints : List TableConstraint) (constraintName : Option String)
    (columns : List String) : Bool :=
  constraints.any fun c =>
    match c with
    | .unique name cols _ =>
        match constraintName, name with
        | some n1, some n2 => n1 = n2
        | none, none => cols = columns
        | _, _ => false
    | _ => false

def addUniqueConstraintsFromGroups (groups : ColumnGroups) :
    List String → List TableConstraint → Except TableValidationError (List TableConstraint)
  | [], constraints => .ok constraints
  | uniqueName :: rest, constraints =>
      match groups.lookup uniqueName with
      | none => .error (.invariantViolation
          s!"unique group '{uniqueName}' missing during normalize")
      | some columns =>
          let constraintName := generatedNameToConstraintName uniqueName
          addUniqueConstraintsFromGroups groups rest
            (if uniqueConstraintExists constraints constraintName columns then constraints
             else constraints ++ [.unique constraintName columns .default])

def addUniqueConstraints (columns : List ColumnDef) (constraints : List TableConstraint) :
    Except TableValidationError (List TableConstraint) :=
  let s := collectUniqueGroups columns
  addUniqueConstraintsFromGroups s.groups s.order constraints

/-! Foreign key -/

def parseForeignKeyReference (columnName reference : String) :
    Except TableValidationError (String × List String) :=
  match Text.splitOnce '.' reference.toList with
  | some (head, tail) =>
      if head ≠ [] ∧ tail ≠ [] ∧ '.' ∉ tail then
        .ok (String.ofList head, [String.ofList tail])
      else .error (.invalidForeignKeyFormat columnName reference)
  | none => .error (.invalidForeignKeyFormat columnName reference)

structure ForeignKeyParts where
  refTable : String
  refColumns : List String
  onDelete : Option ReferenceAction
  onUpdate : Option ReferenceAction
  deriving DecidableEq, Repr

def parseForeignKey (columnName : String) :
    ForeignKeySyntax → Except TableValidationError ForeignKeyParts
  | .string s =>
      (parseForeignKeyReference columnName s).map fun (table, columns) =>
        ⟨table, columns, none, none⟩
  | .reference r =>
      (parseForeignKeyReference columnName r.references).map fun (table, columns) =>
        ⟨table, columns, r.onDelete, r.onUpdate⟩
  | .object d => .ok ⟨d.refTable, d.refColumns, d.onDelete, d.onUpdate⟩

def foreignKeyConstraintExists (constraints : List TableConstraint) (columnName : String) : Bool :=
  constraints.any fun c =>
    match c with
    | .foreignKey _ columns _ _ _ _ _ => columns = [columnName]
    | _ => false

def addForeignKeyConstraints :
    List ColumnDef → List TableConstraint → Except TableValidationError (List TableConstraint)
  | [], constraints => .ok constraints
  | col :: rest, constraints =>
      match col.foreignKey with
      | none => addForeignKeyConstraints rest constraints
      | some fkSyntax =>
          match parseForeignKey col.name fkSyntax with
          | .error e => .error e
          | .ok parts =>
              addForeignKeyConstraints rest
                (if foreignKeyConstraintExists constraints col.name then constraints
                 else constraints ++ [.foreignKey none [col.name] parts.refTable parts.refColumns
                   parts.onDelete parts.onUpdate .default])

/-! Index -/

/-- Which columns already joined each index; the map is read by key only. -/
structure IndexState where
  grouped : GroupState
  tracker : ColumnGroups
  deriving DecidableEq, Repr

def pushCheckedIndex (s : IndexState) (indexName columnName : String) :
    Except TableValidationError IndexState :=
  if columnName ∈ (s.tracker.lookup indexName).getD [] then
    .error (.duplicateIndexColumn indexName columnName)
  else
    .ok { grouped := pushGroupedColumn s.grouped indexName columnName
          tracker := appendToGroup s.tracker indexName columnName }

def pushIndexArray (columnName : String) :
    List String → List String → IndexState → Except TableValidationError IndexState
  | _, [], s => .ok s
  | seenInArray, indexName :: rest, s =>
      if indexName ∈ seenInArray then .error (.duplicateIndexColumn indexName columnName)
      else
        match pushCheckedIndex s indexName columnName with
        | .error e => .error e
        | .ok s' => pushIndexArray columnName (indexName :: seenInArray) rest s'

def collectColumnIndexes (columnName : String) (indexVal : StrOrBoolOrArray) (s : IndexState) :
    Except TableValidationError IndexState :=
  match indexVal with
  | .str name => pushCheckedIndex s name columnName
  | .bool true => pushCheckedIndex s (autoPrefix ++ columnName) columnName
  | .bool false => .ok s
  | .array names => pushIndexArray columnName [] names s

def collectIndexGroupsFrom :
    List ColumnDef → IndexState → Except TableValidationError IndexState
  | [], s => .ok s
  | col :: rest, s =>
      match col.index with
      | none => collectIndexGroupsFrom rest s
      | some indexVal =>
          match collectColumnIndexes col.name indexVal s with
          | .error e => .error e
          | .ok s' => collectIndexGroupsFrom rest s'

def collectIndexGroups (columns : List ColumnDef) : Except TableValidationError GroupState :=
  (collectIndexGroupsFrom columns ⟨⟨[], []⟩, []⟩).map (·.grouped)

def indexConstraintExists (constraints : List TableConstraint) (constraintName : Option String)
    (columns : List String) : Bool :=
  constraints.any fun c =>
    match c with
    | .index name cols =>
        match constraintName, name with
        | some n1, some n2 => n1 = n2
        | none, none => cols = columns
        | _, _ => false
    | _ => false

def addIndexConstraintsFromGroups (groups : ColumnGroups) :
    List String → List TableConstraint → Except TableValidationError (List TableConstraint)
  | [], constraints => .ok constraints
  | indexName :: rest, constraints =>
      match groups.lookup indexName with
      | none => .error (.invariantViolation
          s!"index group '{indexName}' missing during normalize")
      | some columns =>
          let constraintName := generatedNameToConstraintName indexName
          addIndexConstraintsFromGroups groups rest
            (if indexConstraintExists constraints constraintName columns then constraints
             else constraints ++ [.index constraintName columns])

def addIndexConstraints (columns : List ColumnDef) (constraints : List TableConstraint) :
    Except TableValidationError (List TableConstraint) :=
  match collectIndexGroups columns with
  | .error e => .error e
  | .ok s => addIndexConstraintsFromGroups s.groups s.order constraints

def TableDef.normalize (table : TableDef) : Except TableValidationError TableDef := do
  let constraints := addPrimaryKeyConstraint table.columns table.constraints
  let constraints ← addUniqueConstraints table.columns constraints
  let constraints ← addForeignKeyConstraints table.columns constraints
  let constraints ← addIndexConstraints table.columns constraints
  return { table with constraints }

theorem normalize_fields {t t' : TableDef} (h : t.normalize = .ok t') :
    t'.name = t.name ∧ t'.description = t.description ∧ t'.columns = t.columns := by
  simp only [TableDef.normalize, bind, Except.bind, pure, Except.pure] at h
  split at h
  · simp at h
  · split at h
    · simp at h
    · split at h
      · simp at h
      · obtain rfl := Except.ok.inj h
        exact ⟨rfl, rfl, rfl⟩

end Vespertide
