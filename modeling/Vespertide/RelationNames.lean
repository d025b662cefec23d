import Vespertide.Schema
import Vespertide.Support.FreshName

/-!
Identifiers that the exporters derive from table and column names, and the
scans over foreign keys that they share. Each end of a relation is written from
its own scan; the relation name is what both ends must have in common.
-/
namespace Vespertide

/-! Identifiers -/

def toPascalCase (s : String) : String := String.ofList (pascal true s.toList)
where
  pascal : Bool → List Char → List Char
    | _, [] => []
    | capitalize, c :: cs =>
        if c = '_' ∨ c = '-' then pascal true cs
        else (if capitalize then c.toUpper else c) :: pascal false cs

def stripSuffix (ending s : String) : Option String :=
  if ending.toList <:+ s.toList then some (String.ofList (s.toList.take (s.length - ending.length)))
  else none

def inferRelationFieldName (fkCol : String) : String := (stripSuffix "_id" fkCol).getD fkCol

inductive IdentifierStart where
  | underscore | letter
  deriving DecidableEq

def sanitizeIdentifier (name : String) (start : IdentifierStart) : String :=
  let result := name.toList.map fun ch => if ch.isAlphanum then ch else '_'
  let needsPrefix : Bool := match start with
    | .underscore => result = [] ∨ result.head?.any Char.isDigit
    | .letter => ¬ result.head?.any Char.isAlpha
  let pre := match start with
    | .underscore => '_'
    | .letter => if (result.find? Char.isAlpha).any Char.isUpper then 'X' else 'x'
  String.ofList (if needsPrefix then pre :: result else result)

/-- The preferred name, then with `_rel`, then numbered from 2. -/
def claimFieldName (preferred : String) (taken : List String) : String :=
  if preferred ∉ taken then preferred
  else if preferred ++ "_rel" ∉ taken then preferred ++ "_rel"
  else FreshName.first (fun index => preferred ++ "_rel" ++ toString index) taken 2

/-! Foreign keys -/

structure TableForeignKey where
  constraintIdx : Nat
  columns : List String
  refTable : String
  refColumns : List String
  onDelete : Option ReferenceAction
  onUpdate : Option ReferenceAction
  deriving DecidableEq

def asForeignKey : TableConstraint × Nat → Option TableForeignKey
  | (.foreignKey _ columns refTable refColumns onDelete onUpdate _, idx) =>
      some ⟨idx, columns, refTable, refColumns, onDelete, onUpdate⟩
  | _ => none

def foreignKeys (t : TableDef) : List TableForeignKey := t.constraints.zipIdx.filterMap asForeignKey

def fkCount (t : TableDef) (refTable : String) : Nat :=
  (foreignKeys t).countP (·.refTable = refTable)

def relationSegment (columns : List String) : String :=
  "_".intercalate (columns.map inferRelationFieldName)

def relationBase (t : TableDef) (fk : TableForeignKey) : String :=
  toPascalCase t.name ++ toPascalCase (relationSegment fk.columns)

def numberedName (base : String) (seen : Nat) : String :=
  if seen = 1 then base else base ++ toString seen

/-- Repeats of a base within a target are numbered in the order of the constraints. -/
def nameRelations (t : TableDef) :
    List TableForeignKey → List (String × String) → List (Nat × String)
  | [], _ => []
  | fk :: rest, used =>
      let base := relationBase t fk
      let seen := used.count (fk.refTable, base) + 1
      (fk.constraintIdx, numberedName base seen) :: nameRelations t rest ((fk.refTable, base) :: used)

def fkRelationNames (t : TableDef) : List (Nat × String) := nameRelations t (foreignKeys t) []

structure BackRelation where
  /-- the place of the source table in the schema -/
  source : Nat
  constraintIdx : Nat
  sourceTable : String
  fkColumns : List String
  refColumns : List String
  onDelete : Option ReferenceAction
  onUpdate : Option ReferenceAction
  relSegment : String
  isOneToOne : Bool
  relationName : Option String

def primaryKeyOf (t : TableDef) : List String :=
  ((t.constraints.find? (·.isPrimaryKey)).map (·.columns)).getD []

/-- The key's columns are those of the primary key, or of a unique constraint. -/
def isOneToOneKey (t : TableDef) (fkCols : List String) : Bool :=
  let fkSet := fkCols.dedup
  let covers (columns : List String) : Bool :=
    columns.length = fkSet.length ∧ ∀ c ∈ columns, c ∈ fkSet
  covers (primaryKeyOf t) || t.constraints.any fun
    | .unique _ columns _ => covers columns
    | _ => false

def backRelation (targetTable : String) (source : TableDef) (position : Nat)
    (fk : TableForeignKey) : BackRelation where
  source := position
  constraintIdx := fk.constraintIdx
  sourceTable := source.name
  fkColumns := fk.columns
  refColumns := fk.refColumns
  onDelete := fk.onDelete
  onUpdate := fk.onUpdate
  relSegment := relationSegment fk.columns
  isOneToOne := isOneToOneKey source fk.columns
  relationName :=
    if 1 < fkCount source targetTable ∨ source.name = targetTable then
      (fkRelationNames source).lookup fk.constraintIdx
    else none

def collectBackRelations (targetTable : String) (schema : List TableDef) : List BackRelation :=
  schema.zipIdx.flatMap fun (source, position) =>
    ((foreignKeys source).filter (·.refTable = targetTable)).map
      (backRelation targetTable source position)

/-! The name of a relation -/

section Naming
variable {t : TableDef}

theorem foreign_keys_sublist (constraints : List (TableConstraint × Nat)) :
    ((constraints.filterMap asForeignKey).map (·.constraintIdx)).Sublist (constraints.map (·.2)) := by
  induction constraints with
  | nil => exact .slnil
  | cons c rest ih =>
    rw [List.filterMap_cons]
    cases made : asForeignKey c with
    | none => exact ih.cons _
    | some fk =>
      have same : fk.constraintIdx = c.2 := by
        obtain ⟨constraint, idx⟩ := c
        cases constraint <;> cases made
        rfl
      rw [List.map_cons, List.map_cons, same]
      exact ih.cons_cons _

theorem foreign_keys_nodup (t : TableDef) : ((foreignKeys t).map (·.constraintIdx)).Nodup := by
  refine (foreign_keys_sublist t.constraints.zipIdx).nodup ?_
  rw [List.zipIdx_map_snd]
  exact List.nodup_range'

theorem same_key {fk other : TableForeignKey} (mem : fk ∈ foreignKeys t)
    (listed : other ∈ foreignKeys t) (same : fk.constraintIdx = other.constraintIdx) :
    fk = other :=
  List.inj_on_of_nodup_map (foreign_keys_nodup t) mem listed same

def takes (t : TableDef) (refTable base : String) (fk : TableForeignKey) : Bool :=
  fk.refTable = refTable ∧ relationBase t fk = base

def occurrence (t : TableDef) (before : List TableForeignKey) (fk : TableForeignKey) : Nat :=
  before.countP (takes t fk.refTable (relationBase t fk)) + 1

theorem name_relations_lookup {before after : List TableForeignKey} {fk : TableForeignKey} :
    ∀ {used : List (String × String)}, fk.constraintIdx ∉ before.map (·.constraintIdx) →
      (nameRelations t (before ++ fk :: after) used).lookup fk.constraintIdx =
        some (numberedName (relationBase t fk)
          (used.count (fk.refTable, relationBase t fk) + occurrence t before fk)) := by
  induction before with
  | nil =>
    intro used _
    rw [List.nil_append, nameRelations, List.lookup_cons_self]
    rfl
  | cons other before ih =>
    intro used away
    rw [List.map_cons, List.mem_cons, not_or] at away
    rw [List.cons_append, nameRelations, List.lookup_cons, beq_eq_false_iff_ne.mpr away.1]
    simp only
    rw [ih away.2, occurrence, occurrence, List.count_cons, List.countP_cons]
    have together : ((other.refTable, relationBase t other) == (fk.refTable, relationBase t fk)) =
        takes t fk.refTable (relationBase t fk) other := by
      rw [Bool.eq_iff_iff]
      simp [takes]
    rw [together]
    congr 2
    omega

theorem relation_names_lookup {before after : List TableForeignKey} {fk : TableForeignKey}
    (split : foreignKeys t = before ++ fk :: after) :
    (fkRelationNames t).lookup fk.constraintIdx =
      some (numberedName (relationBase t fk) (occurrence t before fk)) := by
  have nodup := foreign_keys_nodup t
  rw [split, List.map_append, List.map_cons] at nodup
  have away : fk.constraintIdx ∉ before.map (·.constraintIdx) := fun mem =>
    (List.nodup_append.mp nodup).2.2 _ mem _ List.mem_cons_self rfl
  rw [fkRelationNames, split, name_relations_lookup away]
  simp

theorem numbered_injective {base : String} {k k' : Nat}
    (same : numberedName base k = numberedName base k') : k = k' := by
  have unnumbered : ∀ n : Nat, base ≠ base ++ toString n := by
    intro n equal
    have nothing : "" = toString n := @FreshName.append_cancel base _ _ (by rwa [String.append_empty])
    have lists := congrArg String.toList nothing
    rw [Nat.toString_eq_repr, Nat.toList_repr] at lists
    exact Nat.toDigits_ne_nil lists.symm
  unfold numberedName at same
  split at same <;> split at same
  · omega
  · exact absurd same (unnumbered k')
  · exact absurd same.symm (unnumbered k)
  · exact FreshName.numbered_injective base same

def repeats (t : TableDef) (refTable base : String) : Nat :=
  (foreignKeys t).countP (takes t refTable base)

theorem occurrence_le {before after : List TableForeignKey} {fk : TableForeignKey}
    (split : foreignKeys t = before ++ fk :: after) :
    occurrence t before fk ≤ repeats t fk.refTable (relationBase t fk) := by
  have own : takes t fk.refTable (relationBase t fk) fk = true := by simp [takes]
  rw [repeats, split, List.countP_append, List.countP_cons, if_pos own, occurrence]
  omega

theorem occurrence_inj {before after before' after' : List TableForeignKey}
    {fk fk' : TableForeignKey} (split : foreignKeys t = before ++ fk :: after)
    (split' : foreignKeys t = before' ++ fk' :: after') (target : fk.refTable = fk'.refTable)
    (base : relationBase t fk = relationBase t fk')
    (same : occurrence t before fk = occurrence t before' fk') : fk = fk' := by
  have own : takes t fk.refTable (relationBase t fk) fk = true := by simp [takes]
  have own' : takes t fk.refTable (relationBase t fk) fk' = true := by simp [takes, target, base]
  unfold occurrence at same
  rw [← target, ← base] at same
  rcases List.append_eq_append_iff.mp (split.symm.trans split') with
    ⟨between, rfl, rest⟩ | ⟨between, rfl, rest⟩
  · cases between with
    | nil => exact (List.cons.inj rest).1
    | cons first between =>
      obtain ⟨rfl, -⟩ := List.cons.inj rest
      rw [List.countP_append, List.countP_cons, if_pos own] at same
      omega
  · cases between with
    | nil => exact (List.cons.inj rest).1.symm
    | cons first between =>
      obtain ⟨rfl, -⟩ := List.cons.inj rest
      rw [List.countP_append, List.countP_cons, if_pos own'] at same
      omega

theorem exists_nth {α : Type} (p : α → Bool) : ∀ {xs : List α} {k : Nat}, 1 ≤ k → k ≤ xs.countP p →
    ∃ before x after, xs = before ++ x :: after ∧ p x = true ∧ before.countP p + 1 = k
  | [], k, positive, le => by
    rw [List.countP_nil] at le
    omega
  | x :: xs, k, positive, le => by
    by_cases first : p x = true ∧ k = 1
    · exact ⟨[], x, xs, rfl, first.1, by rw [first.2, List.countP_nil]⟩
    · rw [List.countP_cons] at le
      by_cases counted : p x = true
      · rw [if_pos counted] at le
        have later : 1 ≤ k - 1 := by
          have : k ≠ 1 := fun same => first ⟨counted, same⟩
          omega
        have fewer : k - 1 ≤ xs.countP p := by omega
        obtain ⟨before, y, after, split, found, nth⟩ := exists_nth p later fewer
        refine ⟨x :: before, y, after, by rw [split, List.cons_append], found, ?_⟩
        rw [List.countP_cons, if_pos counted]
        omega
      · rw [if_neg counted] at le
        obtain ⟨before, y, after, split, found, nth⟩ := exists_nth p positive le
        refine ⟨x :: before, y, after, by rw [split, List.cons_append], found, ?_⟩
        rw [List.countP_cons, if_neg counted]
        omega

theorem occurrence_exists {refTable base : String} {k : Nat} (positive : 1 ≤ k)
    (le : k ≤ repeats t refTable base) : ∃ before fk after, foreignKeys t = before ++ fk :: after ∧
      fk.refTable = refTable ∧ relationBase t fk = base ∧ occurrence t before fk = k := by
  obtain ⟨before, fk, after, split, found, nth⟩ := exists_nth _ positive le
  obtain ⟨rfl, rfl⟩ := of_decide_eq_true found
  exact ⟨before, fk, after, split, rfl, rfl, nth⟩

end Naming

end Vespertide
