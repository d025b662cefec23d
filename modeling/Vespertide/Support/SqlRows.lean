import Mathlib.Data.List.ReduceOption
import Mathlib.Data.List.Dedup
import Mathlib.Data.List.MinMax
import Mathlib.Order.Basic

/-!
Deleting and updating rows under a condition of SQL. Conditions are read in
three truth values and a row is affected only where its condition is true. A
column is looked up in the innermost table of its name, so a subquery over the
table of the statement hides the row the statement stands at.
-/
namespace SqlRows
variable {ν V : Type} [DecidableEq ν] [LinearOrder V]

inductive Truth where
  | yes | no | unknown
  deriving DecidableEq, Repr

def Truth.ofBool (b : Bool) : Truth := if b then .yes else .no

def Truth.not : Truth → Truth
  | .yes => .no
  | .no => .yes
  | .unknown => .unknown

def Truth.and : Truth → Truth → Truth
  | .no, _ => .no
  | _, .no => .no
  | .yes, .yes => .yes
  | _, _ => .unknown

def Truth.or (a b : Truth) : Truth := (a.not.and b.not).not

@[simp] theorem not_yes_iff (a : Truth) : a.not = .yes ↔ a = .no := by
  cases a <;> simp [Truth.not]

@[simp] theorem and_yes_iff (a b : Truth) : a.and b = .yes ↔ a = .yes ∧ b = .yes := by
  cases a <;> cases b <;> simp [Truth.and]

@[simp] theorem or_yes_iff (a b : Truth) : a.or b = .yes ↔ a = .yes ∨ b = .yes := by
  cases a <;> cases b <;> simp [Truth.or, Truth.and, Truth.not]

@[simp] theorem of_bool_yes_iff (b : Bool) : Truth.ofBool b = .yes ↔ b = true := by
  cases b <;> simp [Truth.ofBool]

@[simp] theorem of_bool_no_iff (b : Bool) : Truth.ofBool b = .no ↔ b = false := by
  cases b <;> simp [Truth.ofBool]

abbrev Row (ν V : Type) := ν → Option V
abbrev Tables (ν V : Type) := ν → List (Row ν V)

structure ColumnRef (ν : Type) where
  table : Option ν
  column : ν
  deriving DecidableEq, Repr

/-- The rows in scope under the names of their tables, innermost first. -/
abbrev Scope (ν V : Type) := List (ν × Row ν V)

def resolve (ref : ColumnRef ν) : Scope ν V → Option V
  | [] => none
  | (table, row) :: outer =>
      if ref.table = none ∨ ref.table = some table then row ref.column else resolve ref outer

def equal : Option V → Option V → Truth
  | some x, some y => .ofBool (x = y)
  | _, _ => .unknown

@[simp] theorem equal_yes_iff (a b : Option V) : equal a b = .yes ↔ a = b ∧ b ≠ none := by
  cases a <;> cases b <;> simp [equal]

inductive Aggregate where
  | min | max
  deriving DecidableEq, Repr

/-- Nulls are ignored; over nulls only the result is null. -/
def Aggregate.over (agg : Aggregate) (values : List (Option V)) : Option V :=
  match agg with
  | .min => values.reduceOption.min?
  | .max => values.reduceOption.max?

/-- `GROUP BY` puts the nulls of a column together, as if they were equal. -/
def groupKey (columns : List ν) (row : Row ν V) : List (Option V) := columns.map row

def grouped (agg : Aggregate) (column : ν) (groupBy : List ν) (rows : List (Row ν V)) :
    List (Option V) :=
  ((rows.map (groupKey groupBy)).dedup).map fun key =>
    agg.over ((rows.filter fun row => groupKey groupBy row = key).map fun row => row column)

/-- `NOT IN`: over a null the answer is unknown unless the value is found. -/
def notIn (a : Option V) (values : List (Option V)) : Truth :=
  if values = [] then .yes
  else
    match a with
    | none => .unknown
    | some x => if some x ∈ values then .no else if none ∈ values then .unknown else .yes

inductive Condition (ν : Type) where
  | eq (a b : ColumnRef ν)
  | isNotNull (a : ColumnRef ν)
  | not (a : Condition ν)
  | and (a b : Condition ν)
  | or (a b : Condition ν)
  | paren (a : Condition ν)
  | exists (table : ν) (filter : Condition ν)
  | notInGrouped (a : ColumnRef ν) (agg : Aggregate) (column table : ν) (groupBy : List ν)
  deriving DecidableEq, Repr

def Condition.eval (db : Tables ν V) : Condition ν → Scope ν V → Truth
  | .eq a b, scope => equal (resolve a scope) (resolve b scope)
  | .isNotNull a, scope => .ofBool (resolve a scope).isSome
  | .not a, scope => (a.eval db scope).not
  | .and a b, scope => (a.eval db scope).and (b.eval db scope)
  | .or a b, scope => (a.eval db scope).or (b.eval db scope)
  | .paren a, scope => a.eval db scope
  | .exists table filter, scope =>
      .ofBool ((db table).any fun row => filter.eval db ((table, row) :: scope) = .yes)
  | .notInGrouped a agg column table groupBy, scope =>
      notIn (resolve a scope) (grouped agg column groupBy (db table))

/-- `c AND c₁ AND c₂ …`, read from the left. -/
def Condition.all (first : Condition ν) (rest : List (Condition ν)) : Condition ν :=
  rest.foldl .and first

def Condition.any (first : Condition ν) (rest : List (Condition ν)) : Condition ν :=
  rest.foldl .or first

theorem eval_all (db : Tables ν V) (scope : Scope ν V) (first : Condition ν)
    (rest : List (Condition ν)) :
    (Condition.all first rest).eval db scope = .yes ↔
      ∀ c ∈ first :: rest, c.eval db scope = .yes := by
  induction rest generalizing first with
  | nil => simp [Condition.all]
  | cons c rest ih =>
    rw [Condition.all, List.foldl_cons, ← Condition.all, ih]
    simp [Condition.eval, and_assoc]

theorem eval_any (db : Tables ν V) (scope : Scope ν V) (first : Condition ν)
    (rest : List (Condition ν)) :
    (Condition.any first rest).eval db scope = .yes ↔
      ∃ c ∈ first :: rest, c.eval db scope = .yes := by
  induction rest generalizing first with
  | nil => simp [Condition.any]
  | cons c rest ih =>
    rw [Condition.any, List.foldl_cons, ← Condition.any, ih]
    simp [Condition.eval, or_assoc]

theorem eval_not_exists (db : Tables ν V) (scope : Scope ν V) (table : ν) (filter : Condition ν) :
    (Condition.not (.exists table filter)).eval db scope = .yes ↔
      ∀ row ∈ db table, filter.eval db ((table, row) :: scope) ≠ .yes := by
  simp [Condition.eval]

inductive Statement (ν : Type) where
  | updateNull (table : ν) (columns : List ν) (filter : Condition ν)
  | delete (table : ν) (filter : Condition ν)
  deriving DecidableEq, Repr

def Statement.table : Statement ν → ν
  | .updateNull table _ _ => table
  | .delete table _ => table

/-- What becomes of a row of the statement's table; `none` is a deleted row. -/
def Statement.effect (db : Tables ν V) (s : Statement ν) (row : Row ν V) : Option (Row ν V) :=
  match s with
  | .updateNull table columns filter =>
      if filter.eval db [(table, row)] = .yes then
        some fun column => if column ∈ columns then none else row column
      else some row
  | .delete table filter => if filter.eval db [(table, row)] = .yes then none else some row

def Statement.run (db : Tables ν V) (s : Statement ν) : Tables ν V :=
  Function.update db s.table ((db s.table).filterMap (s.effect db))

theorem effect_delete_none (db : Tables ν V) (table : ν) (filter : Condition ν) (row : Row ν V) :
    (Statement.delete table filter).effect db row = none ↔
      filter.eval db [(table, row)] = .yes := by
  simp [Statement.effect]

theorem effect_delete_kept (db : Tables ν V) (table : ν) (filter : Condition ν) (row : Row ν V) :
    (Statement.delete table filter).effect db row = some row ↔
      filter.eval db [(table, row)] ≠ .yes := by
  simp [Statement.effect]

theorem effect_update_kept {db : Tables ν V} {table : ν} {columns : List ν}
    {filter : Condition ν} {row : Row ν V} :
    (Statement.updateNull table columns filter).effect db row = some row ↔
      filter.eval db [(table, row)] = .yes → ∀ c ∈ columns, row c = none := by
  simp only [Statement.effect]
  split
  · rename_i affected
    simp only [Option.some.injEq, affected, forall_const]
    constructor
    · intro same c mem
      have here := congrFun same c
      simpa [mem] using here.symm
    · intro null
      funext c
      by_cases mem : c ∈ columns
      · simp [mem, null c mem]
      · simp [mem]
  · rename_i unaffected
    simp [unaffected]

/-! Groups of rows that a non-null column identifies -/

section Identified
variable {column : ν} {rows : List (Row ν V)}
  (identified : ∀ r ∈ rows, ∀ r' ∈ rows, r column = r' column → r = r')
  (filled : ∀ r ∈ rows, r column ≠ none)

/-- `MIN` keeps the least value of the column, `MAX` the greatest. -/
def Aggregate.prefers (agg : Aggregate) (a b : Option V) : Prop :=
  match agg with
  | .min => ∀ x y, a = some x → b = some y → x ≤ y
  | .max => ∀ x y, a = some x → b = some y → y ≤ x

omit [LinearOrder V] in
theorem mem_reduce {values : List (Option V)} {x : V} :
    x ∈ values.reduceOption ↔ some x ∈ values := by
  exact List.reduceOption_mem_iff

theorem aggregate_over_eq {agg : Aggregate} {values : List (Option V)} {x : V} :
    agg.over values = some x ↔ some x ∈ values ∧ ∀ v ∈ values, agg.prefers (some x) v := by
  cases agg with
  | min =>
    simp only [Aggregate.over, List.min?_eq_some_iff, mem_reduce, Aggregate.prefers]
    refine and_congr_right fun _ => ⟨?_, ?_⟩
    · rintro least v mem _ y ⟨⟩ rfl
      exact least y mem
    · intro least y mem
      exact least (some y) mem x y rfl rfl
  | max =>
    simp only [Aggregate.over, List.max?_eq_some_iff, mem_reduce, Aggregate.prefers]
    refine and_congr_right fun _ => ⟨?_, ?_⟩
    · rintro greatest v mem _ y ⟨⟩ rfl
      exact greatest y mem
    · intro greatest y mem
      exact greatest (some y) mem x y rfl rfl

theorem aggregate_over_ne_none {agg : Aggregate} {values : List (Option V)} {x : V}
    (mem : some x ∈ values) : agg.over values ≠ none := by
  intro empty
  have nil : values.reduceOption = [] := by
    cases agg with
    | min => simpa [Aggregate.over, List.min?_eq_none_iff] using empty
    | max => simpa [Aggregate.over, List.max?_eq_none_iff] using empty
  have here := mem_reduce.mpr mem
  rw [nil] at here
  exact List.not_mem_nil here

omit [DecidableEq ν] in
include filled in
theorem none_not_mem_grouped (agg : Aggregate) (groupBy : List ν) :
    none ∉ grouped agg column groupBy rows := by
  intro mem
  simp only [grouped, List.mem_map, List.mem_dedup] at mem
  obtain ⟨key, ⟨r, hr, rfl⟩, empty⟩ := mem
  obtain ⟨x, hx⟩ := Option.ne_none_iff_exists'.mp (filled r hr)
  refine aggregate_over_ne_none (x := x) ?_ empty
  exact List.mem_map.mpr ⟨r, List.mem_filter.mpr ⟨hr, by simp⟩, hx⟩

theorem prefers_refl (agg : Aggregate) (a : Option V) : agg.prefers a a := by
  cases agg <;>
  · rintro x y hx hy
    rw [Option.some.inj (hx.symm.trans hy)]

theorem prefers_antisymm {agg : Aggregate} {x y : V} (ahead : agg.prefers (some x) (some y))
    (behind : agg.prefers (some y) (some x)) : x = y := by
  cases agg with
  | min => exact le_antisymm (ahead x y rfl rfl) (behind y x rfl rfl)
  | max => exact le_antisymm (behind y x rfl rfl) (ahead x y rfl rfl)

omit [DecidableEq ν] in
include filled in
theorem exists_chosen (agg : Aggregate) (groupBy : List ν) {r : Row ν V} (mem : r ∈ rows) :
    ∃ k ∈ rows, groupKey groupBy k = groupKey groupBy r ∧
      ∀ r' ∈ rows, groupKey groupBy r' = groupKey groupBy k →
        agg.prefers (k column) (r' column) := by
  obtain ⟨x, hx⟩ := Option.ne_none_iff_exists'.mp (filled r mem)
  have in_group : r ∈ rows.filter fun row => groupKey groupBy row = groupKey groupBy r :=
    List.mem_filter.mpr ⟨mem, by simp⟩
  have value : some x ∈ (rows.filter fun row => groupKey groupBy row = groupKey groupBy r).map
      fun row => row column := List.mem_map.mpr ⟨r, in_group, hx⟩
  have some_value : agg.over _ ≠ none := aggregate_over_ne_none value
  obtain ⟨y, chosen⟩ := Option.ne_none_iff_exists'.mp some_value
  obtain ⟨found, preferred⟩ := aggregate_over_eq.mp chosen
  obtain ⟨k, k_group, hk⟩ := List.mem_map.mp found
  obtain ⟨k_mem, k_key⟩ := List.mem_filter.mp k_group
  simp only [decide_eq_true_eq] at k_key
  refine ⟨k, k_mem, k_key, fun r' mem' same => ?_⟩
  rw [hk]
  exact preferred (r' column) (List.mem_map.mpr ⟨r', List.mem_filter.mpr ⟨mem', by
    simp [same, k_key]⟩, rfl⟩)

omit [DecidableEq ν] in
include identified filled in
/-- The chosen values are those of the preferred row of each group. -/
theorem mem_grouped_iff {agg : Aggregate} {groupBy : List ν} {r : Row ν V} (mem : r ∈ rows) :
    r column ∈ grouped agg column groupBy rows ↔
      ∀ r' ∈ rows, groupKey groupBy r' = groupKey groupBy r →
        agg.prefers (r column) (r' column) := by
  obtain ⟨x, hx⟩ := Option.ne_none_iff_exists'.mp (filled r mem)
  simp only [grouped, List.mem_map, List.mem_dedup, hx]
  constructor
  · rintro ⟨key, ⟨r₀, _, rfl⟩, chosen⟩ r' mem' same
    obtain ⟨found, preferred⟩ := aggregate_over_eq.mp chosen
    obtain ⟨r₁, in_group, value⟩ := List.mem_map.mp found
    obtain ⟨mem₁, key₁⟩ := List.mem_filter.mp in_group
    have here : r₁ = r := identified r₁ mem₁ r mem (by rw [value, hx])
    subst here
    refine preferred (r' column) (List.mem_map.mpr ⟨r', List.mem_filter.mpr ⟨mem', ?_⟩, rfl⟩)
    simpa [same] using key₁
  · intro preferred
    refine ⟨groupKey groupBy r, ⟨r, mem, rfl⟩, aggregate_over_eq.mpr ⟨?_, ?_⟩⟩
    · exact List.mem_map.mpr ⟨r, List.mem_filter.mpr ⟨mem, by simp⟩, hx⟩
    · intro v hv
      obtain ⟨r', in_group, rfl⟩ := List.mem_map.mp hv
      obtain ⟨mem', same⟩ := List.mem_filter.mp in_group
      exact preferred r' mem' (by simpa using same)

omit [DecidableEq ν] in
include identified filled in
theorem not_in_grouped_iff {agg : Aggregate} {groupBy : List ν} {r : Row ν V} (mem : r ∈ rows) :
    notIn (r column) (grouped agg column groupBy rows) = .yes ↔
      ∃ r' ∈ rows, groupKey groupBy r' = groupKey groupBy r ∧
        ¬ agg.prefers (r column) (r' column) := by
  have choice : r column ∈ grouped agg column groupBy rows ↔ _ :=
    mem_grouped_iff identified filled mem
  obtain ⟨x, hx⟩ := Option.ne_none_iff_exists'.mp (filled r mem)
  have nonempty : grouped agg column groupBy rows ≠ [] := by
    simp only [grouped, ne_eq, List.map_eq_nil_iff, List.dedup_eq_nil]
    exact List.ne_nil_of_mem mem
  have settled := none_not_mem_grouped filled agg groupBy
  rw [hx] at choice
  simp only [notIn, nonempty, ↓reduceIte, hx, settled]
  by_cases chosen : some x ∈ grouped agg column groupBy rows
  · simp only [chosen, ↓reduceIte, reduceCtorEq, false_iff]
    rintro ⟨r', mem', same, other⟩
    exact other (choice.mp chosen r' mem' same)
  · simp only [chosen, ↓reduceIte, true_iff]
    by_contra all
    refine chosen (choice.mpr fun r' mem' same => ?_)
    by_contra other
    exact all ⟨r', mem', same, other⟩

end Identified

end SqlRows
