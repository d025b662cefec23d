import Vespertide.CatalogReplay
import Vespertide.RuntimeHistory
import Vespertide.TablePrefix
import Vespertide.Support.Text

/-!
The history that a program embeds. At compile time each plan is prefixed, built on
the schema replayed so far and written out as one text for each backend; at run time
the statements are read back from it and sent.
-/
namespace Vespertide
open Registry Results

/-! Compile time -/

/-- The statements of a migration, before they are written out. -/
structure MigrationBlock where
  version : Nat
  migrationId : String
  comment : String
  pgSqls : List BuiltQuery
  mysqlSqls : List BuiltQuery
  sqliteSqls : List BuiltQuery
  deriving DecidableEq, Repr

def MigrationBlock.statements (block : MigrationBlock) : DatabaseBackend → List BuiltQuery
  | .postgres => block.pgSqls
  | .mySql => block.mysqlSqls
  | .sqlite => block.sqliteSqls

section Macro
variable
  (collect : Nat → List (Except QueryError PlanQueries) → Except QueryError (List PlanQueries))
  (planQueryParActionThreshold : Nat)

end Macro

/-- The database has the columns of a schema whose names are unique. -/
structure Reflects (db : ColumnCatalog) (schema : Schema) : Prop where
  names : TableNamesNodup schema
  distinct : DistinctColumns schema
  columns : HasColumns db schema

section Run
variable {backend : DatabaseBackend} {db db' : ColumnCatalog} {schema s' : Schema}

theorem Reflects.step (reflects : Reflects db schema) (engine : backend ≠ .postgres)
    {a : MigrationAction} (known : a.isRawSql = false) {pending : List TableConstraint}
    {queries : List BuiltQuery} (applied : (applyAction schema a).toExcept = .ok s')
    (built : buildActionQueriesWithPending backend a schema pending = .ok queries)
    (ran : runSteps runOnColumns db queries = some db') : Reflects db' s' := by
  have step : CatalogStep backend schema db a db' := by
    cases backend with
    | postgres => exact absurd rfl engine
    | mySql => exact mysql_step reflects.names known applied built ran
    | sqlite => exact sqlite_step reflects.names known applied built ran
  obtain ⟨creates, free⟩ := reflects.columns.fresh reflects.distinct step
  obtain ⟨_, rfl⟩ := to_except_ok.mp applied
  exact ⟨apply_action_nodup reflects.names applied,
    free_step_distinct reflects.distinct creates free,
    reflects.columns.step reflects.names reflects.distinct step applied⟩

theorem Reflects.actions (reflects : Reflects db schema) (engine : backend ≠ .postgres)
    {plan : MigrationPlan} {i : Nat} {actions : List MigrationAction}
    (known : ∀ a ∈ actions, a.isRawSql = false) {queries : List PlanQueries}
    (built : buildQueriesFrom plan i actions schema = .ok queries)
    (applied : applyActions schema actions = .ok s')
    (ran : runSteps runOnColumns db (queries.flatMap (·.statements backend)) = some db') :
    Reflects db' s' := by
  induction actions generalizing i schema db queries with
  | nil =>
    obtain rfl := Except.ok.inj applied
    obtain rfl := Except.ok.inj built
    obtain rfl := Option.some.inj ran
    exact reflects
  | cons a rest ih =>
    obtain ⟨own, later, rfl, here, tail⟩ := built_cons built
    rw [apply_actions_cons] at applied
    obtain ⟨next, stepped, replayed⟩ := bind_ok applied
    rw [List.flatMap_cons, run_steps_append] at ran
    obtain ⟨between, first, second⟩ := Option.bind_eq_some_iff.mp ran
    obtain ⟨here_known, later_known⟩ := List.forall_mem_cons.mp known
    have after := reflects.step engine here_known stepped (here backend) first
    obtain ⟨_, rfl⟩ := to_except_ok.mp stepped
    exact ih after later_known tail replayed second

end Run

section History
variable
  {collect : Nat → List (Except QueryError PlanQueries) → Except QueryError (List PlanQueries)}
  (sides : SideBySide collect) {threshold : Nat} {pre : String} {backend : DatabaseBackend}
  (engine : backend ≠ .postgres)
include sides engine

end History

/-! An invoice -/

section Server
variable {build : DatabaseBackend → BuiltQuery → String}
  {takes : ColumnCatalog → String → Option ColumnCatalog}

end Server

/-! A bill with a state, on SQLite -/

end Vespertide
