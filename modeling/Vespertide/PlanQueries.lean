import Vespertide.ActionQueries
import Vespertide.Support.Results

/-!
The statements of a plan, action by action, each built on the schema replayed so
far. Long plans are built in parallel: the schemas are prepared first, then the
actions are built side by side.
-/
namespace Vespertide
open Results

structure PlanQueries where
  action : MigrationAction
  postgres : List BuiltQuery
  mysql : List BuiltQuery
  sqlite : List BuiltQuery
  deriving DecidableEq, Repr

def PlanQueries.statements (queries : PlanQueries) : DatabaseBackend → List BuiltQuery
  | .postgres => queries.postgres
  | .mySql => queries.mysql
  | .sqlite => queries.sqlite

/-- An action as it is built: with the schema it meets and what later actions add. -/
structure PreparedAction where
  action : MigrationAction
  schema : Schema
  pendingConstraints : List TableConstraint
  deriving DecidableEq, Repr

def buildPreparedActionQueries (prepared : PreparedAction) : Except QueryError PlanQueries := do
  let postgres ← buildActionQueriesWithPending .postgres prepared.action prepared.schema
    prepared.pendingConstraints
  let mysql ← buildActionQueriesWithPending .mySql prepared.action prepared.schema
    prepared.pendingConstraints
  let sqlite ← buildActionQueriesWithPending .sqlite prepared.action prepared.schema
    prepared.pendingConstraints
  return ⟨prepared.action, postgres, mysql, sqlite⟩

/-! In sequence -/

/-- The actions from the `i`-th on, each built before it is replayed. -/
def buildQueriesFrom (plan : MigrationPlan) :
    Nat → List MigrationAction → Schema → Except QueryError (List PlanQueries)
  | _, [], _ => .ok []
  | i, action :: rest, evolving => do
      let queries ← buildPreparedActionQueries
        ⟨action, evolving, pendingConstraintsForAction plan i action⟩
      let later ← buildQueriesFrom plan (i + 1) rest (applyAction evolving action).state
      return queries :: later

def buildPlanQueriesSequentially (plan : MigrationPlan) (currentSchema : Schema) :
    Except QueryError (List PlanQueries) := buildQueriesFrom plan 0 plan.actions currentSchema

/-! In parallel -/

def prepareFrom (plan : MigrationPlan) : Nat → List MigrationAction → Schema → List PreparedAction
  | _, [], _ => []
  | i, action :: rest, evolving =>
      ⟨action, evolving, pendingConstraintsForAction plan i action⟩ ::
        prepareFrom plan (i + 1) rest (applyAction evolving action).state

def prepareActions (plan : MigrationPlan) (currentSchema : Schema) : List PreparedAction :=
  prepareFrom plan 0 plan.actions currentSchema

def planQueryParActionMinLen : Nat := 8

/-- `collect` is what the thread pool makes of the results, by the least length of a job. -/
def buildPlanQueriesInParallel
    (collect : Nat → List (Except QueryError PlanQueries) → Except QueryError (List PlanQueries))
    (plan : MigrationPlan) (currentSchema : Schema) : Except QueryError (List PlanQueries) :=
  collect planQueryParActionMinLen
    ((prepareActions plan currentSchema).map buildPreparedActionQueries)

theorem built_cons {plan : MigrationPlan} {i : Nat} {a : MigrationAction}
    {rest : List MigrationAction} {schema : Schema} {queries : List PlanQueries}
    (built : buildQueriesFrom plan i (a :: rest) schema = .ok queries) :
    ∃ own later, queries = own :: later ∧
      (∀ backend, buildActionQueriesWithPending backend a schema
        (pendingConstraintsForAction plan i a) = .ok (own.statements backend)) ∧
      buildQueriesFrom plan (i + 1) rest (applyAction schema a).state = .ok later := by
  obtain ⟨own, here, tail⟩ := bind_ok built
  obtain ⟨later, there, done⟩ := bind_ok tail
  obtain ⟨postgres, first, here⟩ := bind_ok here
  obtain ⟨mysql, second, here⟩ := bind_ok here
  obtain ⟨sqlite, third, here⟩ := bind_ok here
  obtain rfl := Except.ok.inj here
  obtain rfl := Except.ok.inj done
  refine ⟨_, later, rfl, ?_, there⟩
  intro backend
  cases backend
  · exact first
  · exact second
  · exact third

/-! The two compared -/

theorem build_from_prepared (plan : MigrationPlan) (i : Nat) (actions : List MigrationAction)
    (evolving : Schema) : buildQueriesFrom plan i actions evolving =
      collectFirst ((prepareFrom plan i actions evolving).map buildPreparedActionQueries) := by
  induction actions generalizing i evolving with
  | nil => rfl
  | cons action rest ih =>
    rw [buildQueriesFrom, ih]
    rfl

theorem sequential_prepared (plan : MigrationPlan) (currentSchema : Schema) :
    buildPlanQueriesSequentially plan currentSchema =
      collectFirst ((prepareActions plan currentSchema).map buildPreparedActionQueries) :=
  build_from_prepared plan 0 plan.actions currentSchema

theorem prepare_from_get (plan : MigrationPlan) (first : Nat) (actions : List MigrationAction)
    (evolving : Schema) (i : Nat) : (prepareFrom plan first actions evolving)[i]? =
      actions[i]?.map fun a => ⟨a, (actions.take i).foldl (fun s a => (applyAction s a).state)
        evolving, pendingConstraintsForAction plan (first + i) a⟩ := by
  induction actions generalizing first evolving i with
  | nil => simp [prepareFrom]
  | cons action rest ih =>
    cases i with
    | zero => rfl
    | succ i =>
      rw [prepareFrom, List.getElem?_cons_succ, List.getElem?_cons_succ, ih,
        Nat.add_right_comm]
      rfl

def buildActionAt (plan : MigrationPlan) (currentSchema : Schema) (index : Nat)
    (a : MigrationAction) : Except QueryError PlanQueries :=
  buildPreparedActionQueries
    ⟨a, evolvingSchema plan currentSchema index, pendingConstraintsForAction plan index a⟩

def failureAt (plan : MigrationPlan) (currentSchema : Schema) (index : Nat) :
    Option QueryError :=
  plan.actions[index]?.bind fun a => failureOf (buildActionAt plan currentSchema index a)

theorem prepared_failures (plan : MigrationPlan) (currentSchema : Schema) :
    ((prepareActions plan currentSchema).map buildPreparedActionQueries).map failureOf =
      (List.range plan.actions.length).map (failureAt plan currentSchema) := by
  refine List.ext_getElem? fun i => ?_
  rw [List.getElem?_map, List.getElem?_map, List.getElem?_map, prepareActions, prepare_from_get,
    Nat.zero_add]
  by_cases within : i < plan.actions.length
  · have own : failureAt plan currentSchema i =
        failureOf (buildActionAt plan currentSchema i plan.actions[i]) := by
      rw [failureAt, List.getElem?_eq_getElem within, Option.bind_some]
    rw [List.getElem?_range within, List.getElem?_eq_getElem within]
    exact congrArg some own.symm
  · simp [Nat.le_of_not_lt within]

/-- The first failure of a job, by the positions the job works through. -/
theorem job_fails (plan : MigrationPlan) (currentSchema : Schema) (minLen : Nat)
    (path : List Bool) (e : QueryError) :
    collectFirst (job minLen path
      ((prepareActions plan currentSchema).map buildPreparedActionQueries)) = .error e ↔
      (job minLen path (List.range plan.actions.length)).findSome?
        (failureAt plan currentSchema) = some e := by
  rw [collect_first_fails]
  have same := congrArg (List.findSome? id ∘ job minLen path)
    (prepared_failures plan currentSchema)
  simp only [Function.comp_apply, job_map, List.findSome?_map, Function.id_comp] at same
  rw [← same, job_map, List.findSome?_map]

/-- In every job of the pool in which an action cannot be built, the first one fails as the
    first of the whole plan. -/
def FailsAlike (plan : MigrationPlan) (currentSchema : Schema) : Prop :=
  ∀ path e, (job planQueryParActionMinLen path (List.range plan.actions.length)).findSome?
      (failureAt plan currentSchema) = some e →
    (List.range plan.actions.length).findSome? (failureAt plan currentSchema) = some e

/-- A plan that is not halved has one job. -/
theorem fails_alike_short {plan : MigrationPlan} {currentSchema : Schema}
    (short : plan.actions.length < 2 * planQueryParActionMinLen) :
    FailsAlike plan currentSchema := by
  intro path e failed
  rwa [job_whole (by rwa [List.length_range])] at failed

/-- The parallel builder is sure to return what the sequential one does, errors included,
    exactly where all jobs fail alike. -/
theorem parallel_agrees_iff (plan : MigrationPlan) (currentSchema : Schema) :
    (∀ collect, SideBySide collect → buildPlanQueriesInParallel collect plan currentSchema =
      buildPlanQueriesSequentially plan currentSchema) ↔ FailsAlike plan currentSchema := by
  rw [sequential_prepared]
  refine (side_by_side_first_iff _ _).trans ?_
  have whole := job_fails plan currentSchema planQueryParActionMinLen []
  exact forall_congr' fun path => forall_congr' fun e =>
    imp_congr (job_fails plan currentSchema _ path e) (whole e)

def requireColumn (table : String) : MigrationAction :=
  .modifyColumnNullable table "id" false none none

/-- Changes of two tables that do not exist, far enough apart for two jobs. -/
def missingTablesPlan : MigrationPlan :=
  ⟨"", none, none, 1, requireColumn "left" :: List.replicate 15 (requireColumn "right")⟩

set_option maxRecDepth 100000 in
/-- Where the job of the later half is done first, its failure is the one returned. -/
theorem later_failure_returned :
    ¬ ∀ plan currentSchema collect, SideBySide collect →
      buildPlanQueriesInParallel collect plan currentSchema =
        buildPlanQueriesSequentially plan currentSchema := by
  intro agree
  have same := agree missingTablesPlan [] _ (noticing_side_by_side [true])
  revert same
  decide

end Vespertide
