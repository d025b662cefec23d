import Vespertide.Schema
import Vespertide.Support.Claims

/-!
Names of a generated file that holds a whole schema. Tables claim theirs first; an enum
whose identifier another table declares too, or which is taken, is qualified with the
name its table claimed; the members of enums come last.
-/
namespace Vespertide
open Claims

inductive Named where
  | table (name : String)
  | enum (table enumName : String)
  | member (table enumName : String) (index : Nat)
  deriving DecidableEq, Repr

abbrev ScopeNames := Scope Named

/-- Enum columns of a table, the first declaration of a name. -/
def collectTableEnums (t : TableDef) : List (String × EnumValues) :=
  t.columns.foldl (fun result col => match col.type with
    | .complex (.enum name values) =>
        if name ∈ result.map (·.1) then result else result ++ [(name, values)]
    | _ => result) []

/-- Identifiers more than one table declares an enum under. -/
def identifiersSharedAcrossTables (schema : List TableDef) (identifier : String → String) :
    List String :=
  let declared := schema.flatMap fun t =>
    ((collectTableEnums t).map fun e => identifier e.1).dedup
  declared.filter fun ident => 1 < declared.count ident

def declaredEnums (schema : List TableDef) : List (TableDef × String) :=
  schema.flatMap fun t => (collectTableEnums t).map fun e => (t, e.1)

section
variable (tableIdentifier enumIdentifier : String → String) (shared : List String)

def claimTables (schema : List TableDef) : ScopeNames :=
  schema.foldl (fun scope t => scope.claim (.table t.name) (tableIdentifier t.name))
    { names := [], taken := [] }

/-- Qualifying reads the name of the table, which is an error where it has none. -/
def claimEnum (scope : ScopeNames) (declared : TableDef × String) : Option ScopeNames :=
  let (t, enumName) := declared
  let bare := enumIdentifier enumName
  let natural :=
    if bare ∈ shared ∨ bare ∈ scope.taken then (scope.get (.table t.name)).map (· ++ bare)
    else some bare
  natural.map (scope.claim (.enum t.name enumName))

def ScopeNames.collect (schema : List TableDef) : Option ScopeNames :=
  (declaredEnums schema).foldlM
    (claimEnum enumIdentifier (identifiersSharedAcrossTables schema enumIdentifier))
    (claimTables tableIdentifier schema)

end

structure MemberClaim where
  table : String
  enumName : String
  index : Nat
  natural : String

def MemberClaim.key (m : MemberClaim) : Named := .member m.table m.enumName m.index

def claimMember (scope : ScopeNames) (m : MemberClaim) : ScopeNames :=
  scope.claim m.key m.natural

/-! Every step is a claim -/

def claimedKeys (schema : List TableDef) (members : List MemberClaim) : List Named :=
  schema.map (Named.table ·.name) ++
    (declaredEnums schema).map (fun d => Named.enum d.1.name d.2) ++ members.map (·.key)

theorem claim_tables_all (tableIdentifier : String → String) (schema : List TableDef) :
    claimTables tableIdentifier schema =
      claimAll (schema.map fun t => (.table t.name, tableIdentifier t.name)) := by
  rw [claimTables, claimAll, List.foldl_map]

theorem claim_members_all (claims : List (Named × String)) (members : List MemberClaim) :
    members.foldl claimMember (claimAll claims) =
      claimAll (claims ++ members.map fun m => (m.key, m.natural)) := by
  rw [claimAll, claimAll, List.foldl_append, List.foldl_map]
  rfl

theorem claim_enum_all (enumIdentifier : String → String) (shared : List String)
    {claims : List (Named × String)} {declared : TableDef × String}
    (claimed : .table declared.1.name ∈ claims.map (·.1)) : ∃ natural,
      claimEnum enumIdentifier shared (claimAll claims) declared =
        some (claimAll (claims ++ [(.enum declared.1.name declared.2, natural)])) := by
  obtain ⟨name, named⟩ := Option.isSome_iff_exists.mp ((claim_all_claimed claims _).mpr claimed)
  simp only [claimEnum, named, claim_all_concat]
  split
  · exact ⟨_, rfl⟩
  · exact ⟨_, rfl⟩

theorem claim_enums_all (enumIdentifier : String → String) (shared : List String) :
    ∀ (declared : List (TableDef × String)) (claims : List (Named × String)),
      (∀ d ∈ declared, .table d.1.name ∈ claims.map (·.1)) → ∃ later,
        declared.foldlM (claimEnum enumIdentifier shared) (claimAll claims) =
          some (claimAll (claims ++ later)) ∧
        later.map (·.1) = declared.map fun d => .enum d.1.name d.2
  | [], claims, _ => ⟨[], by rw [List.append_nil]; rfl, rfl⟩
  | d :: declared, claims, claimed => by
    obtain ⟨natural, here⟩ :=
      claim_enum_all enumIdentifier shared (claimed d List.mem_cons_self)
    obtain ⟨later, rest, keys⟩ := claim_enums_all enumIdentifier shared declared
      (claims ++ [(.enum d.1.name d.2, natural)]) fun e mem => by
        rw [List.map_append]
        exact List.mem_append_left _ (claimed e (List.mem_cons_of_mem _ mem))
    refine ⟨(.enum d.1.name d.2, natural) :: later, ?_, by rw [List.map_cons, keys]; rfl⟩
    rw [List.foldlM_cons, here]
    simpa using rest

/-- For every schema and pair of identifier functions the names are collected, and after any
    claims of members the scope is settled: names are apart, every claimed key keeps the one
    it found first. -/
theorem scope_names_settled (schema : List TableDef)
    (tableIdentifier enumIdentifier : String → String) (members : List MemberClaim) : ∃ scope,
      ScopeNames.collect tableIdentifier enumIdentifier schema = some scope ∧
      ∃ claims, claims.map (·.1) = claimedKeys schema members ∧
        members.foldl claimMember scope = claimAll claims ∧
        Settled claims (members.foldl claimMember scope) := by
  have claimed : ∀ d ∈ declaredEnums schema, .table d.1.name ∈ (schema.map fun t =>
      (Named.table t.name, tableIdentifier t.name)).map (·.1) := by
    intro d mem
    obtain ⟨t, listed, inside⟩ := List.mem_flatMap.mp mem
    obtain ⟨e, _, rfl⟩ := List.mem_map.mp inside
    rw [List.map_map]
    exact List.mem_map.mpr ⟨t, listed, rfl⟩
  obtain ⟨later, collected, keys⟩ := claim_enums_all enumIdentifier
    (identifiersSharedAcrossTables schema enumIdentifier) (declaredEnums schema) _ claimed
  refine ⟨_, by rw [ScopeNames.collect, claim_tables_all, collected], _, ?_,
    claim_members_all _ members, ?_⟩
  · simp only [List.map_append, keys, List.map_map, claimedKeys]
    rfl
  · rw [claim_members_all]
    exact claim_all_settled _

end Vespertide
