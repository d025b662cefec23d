import Mathlib.Data.Set.Finite.Basic
import Mathlib.Data.Sum.Order
import Mathlib.Logic.Function.Basic
import Mathlib.Tactic.Order
import Vespertide.CheckProbes
import Vespertide.CheckStrengthening

/-!
Which reported strengthenings accept fewer rows. A row is accepted unless the
expression is false of it.
-/
namespace Vespertide

open ThreeValued

/-! Values in one order -/

inductive SqlKind where
  | number | text | bool
  deriving DecidableEq

def SqlValue.kind : SqlValue → SqlKind
  | .number _ => .number
  | .text _ => .text
  | .bool _ => .bool

def SqlValue.key : SqlValue → ℚ ⊕ₗ (List Char ⊕ₗ Bool)
  | .number q => toLex (.inl q)
  | .text s => toLex (.inr (toLex (.inl s)))
  | .bool b => toLex (.inr (toLex (.inr b)))

theorem key_injective : Function.Injective SqlValue.key := by
  intro a b same
  cases a <;> cases b <;> simp_all [SqlValue.key]

/-- Numbers before texts before booleans; only values of one kind are ever compared. -/
instance : LinearOrder SqlValue := LinearOrder.lift' SqlValue.key key_injective

theorem key_lt_iff {a b : SqlValue} : a < b ↔ a.key < b.key := Iff.rfl

theorem value_order (a b : SqlValue) :
    a.order b = if a.kind = b.kind then some (orderOf a b) else none := by
  have numbers : StrictMono SqlValue.number := fun p q less =>
    key_lt_iff.mpr (Sum.Lex.inl_lt_inl_iff.mpr less)
  have texts : StrictMono SqlValue.text := fun s t less =>
    key_lt_iff.mpr (Sum.Lex.inr_lt_inr_iff.mpr (Sum.Lex.inl_lt_inl_iff.mpr less))
  have bools : StrictMono SqlValue.bool := fun b c less =>
    key_lt_iff.mpr (Sum.Lex.inr_lt_inr_iff.mpr (Sum.Lex.inr_lt_inr_iff.mpr less))
  cases a <;> cases b
  · exact congrArg some (numbers.cmp_map_eq _ _).symm
  · rfl
  · rfl
  · rfl
  · exact congrArg some (texts.cmp_map_eq _ _).symm
  · rfl
  · rfl
  · rfl
  · exact congrArg some (bools.cmp_map_eq _ _).symm

theorem compare_false_iff {op : CheckOp} {v x : Option SqlValue} :
    compareTruth op v x = some false ↔
      ∃ a b, v = some a ∧ x = some b ∧ a.kind = b.kind ∧ op.holds (orderOf a b) = false := by
  cases v with
  | none => simp [compareTruth]
  | some a =>
    cases x with
    | none => simp [compareTruth]
    | some b =>
      by_cases same : a.kind = b.kind <;> simp [compareTruth, value_order, same]

/-! Stricter expressions -/

/-- Every row that the new expression accepts is accepted by the old one, and some row that
    the old one accepts is not accepted by the new one. -/
def Strengthens (old new : CheckExpr) : Prop :=
  (∀ row, new.truth row ≠ some false → old.truth row ≠ some false) ∧
    ∃ row, old.truth row ≠ some false ∧ new.truth row = some false

theorem strengthens_values {old new : CheckExpr} {column : String} {first second : SqlValue → Prop}
    (old_false : ∀ row, old.truth row = some false ↔ ∃ a, row column = some a ∧ first a)
    (new_false : ∀ row, new.truth row = some false ↔ ∃ a, row column = some a ∧ second a) :
    Strengthens old new ↔ (∀ a, first a → second a) ∧ ∃ a, second a ∧ ¬ first a := by
  simp only [Strengthens, ne_eq, old_false, new_false, not_imp_not]
  constructor
  · rintro ⟨all, row, kept, a, given, lost⟩
    refine ⟨fun b rejected => ?_, a, lost, fun rejected => kept ⟨a, given, rejected⟩⟩
    obtain ⟨c, same, rejected⟩ := all (fun _ => some b) ⟨b, rfl, rejected⟩
    obtain rfl := Option.some.inj same
    exact rejected
  · rintro ⟨all, a, lost, kept⟩
    refine ⟨fun row => ?_, fun _ => some a, ?_, a, rfl, lost⟩
    · rintro ⟨b, given, rejected⟩
      exact ⟨b, given, all b rejected⟩
    · rintro ⟨b, same, rejected⟩
      obtain rfl := Option.some.inj same
      exact kept rejected

/-! Comparisons -/

def CheckLiteral.HasKind (kind : SqlKind) (literal : CheckLiteral) : Prop :=
  ∃ x, literal.value = some x ∧ x.kind = kind

def ValuesLie (orders : List Ordering) (a b : CheckLiteral) : Prop :=
  ∃ x y order, a.value = some x ∧ b.value = some y ∧ x.order y = some order ∧ order ∈ orders

theorem values_lie_iff {a b : CheckLiteral} {x y : SqlValue} {orders : List Ordering}
    (left : a.value = some x) (right : b.value = some y) (kinds : x.kind = y.kind) :
    ValuesLie orders a b ↔ orderOf x y ∈ orders := by
  constructor
  · rintro ⟨x', y', order, left', right', same, listed⟩
    obtain rfl := Option.some.inj (left.symm.trans left')
    obtain rfl := Option.some.inj (right.symm.trans right')
    rw [value_order, if_pos kinds] at same
    obtain rfl := Option.some.inj same
    exact listed
  · intro listed
    exact ⟨x, y, _, left, right, by rw [value_order, if_pos kinds], listed⟩

theorem kind_of_same {a b : CheckLiteral} (same : SameKind a b) :
    ∃ x y, a.value = some x ∧ b.value = some y ∧ x.kind = y.kind := by
  cases same with
  | numbers left right => exact ⟨_, _, number_value left, number_value right, rfl⟩
  | strings q r => exact ⟨_, _, rfl, rfl, rfl⟩
  | bools a b => exact ⟨_, _, rfl, rfl, rfl⟩

theorem approx_kind {a b : CheckLiteral} (close : a.approxEq b = true) :
    SameKind a b ∨ a = .null ∧ b = .null := by
  cases a <;> cases b <;> first
    | exact .inl (.numbers rfl rfl)
    | exact .inl (.strings _ _)
    | exact .inl (.bools _ _)
    | exact .inr ⟨rfl, rfl⟩
    | cases close

/-- The orders of the old bound and the new one for which the new one is stricter. -/
def StricterOrder : CheckOp → CheckOp → List Ordering
  | .gt, .gt | .ge, .ge => [.lt]
  | .lt, .lt | .le, .le => [.gt]
  | .ge, .gt => [.lt, .eq]
  | .le, .lt => [.gt, .eq]
  | _, _ => []

theorem stricter_bounds_iff {op1 op2 : CheckOp} {x y : SqlValue} (kinds : x.kind = y.kind)
    (ops : StricterOrder op1 op2 ≠ []) :
    ((∀ a : SqlValue, a.kind = x.kind → op1.holds (orderOf a x) = false →
        op2.holds (orderOf a y) = false) ∧
      ∃ a : SqlValue, a.kind = y.kind ∧ op2.holds (orderOf a y) = false ∧
        ¬ op1.holds (orderOf a x) = false) ↔ orderOf x y ∈ StricterOrder op1 op2 := by
  have above : orderOf x y ∈ [.gt] ↔ y < x := by rw [List.mem_singleton, order_gt_iff]
  have below : orderOf x y ∈ [.lt] ↔ x < y := by rw [List.mem_singleton, order_lt_iff]
  have notBelow : orderOf x y ∈ [.gt, .eq] ↔ y ≤ x := by
    simp only [List.mem_cons, List.not_mem_nil, or_false, order_gt_iff, order_eq_iff,
      le_iff_lt_or_eq, @eq_comm _ x y]
  have notAbove : orderOf x y ∈ [.lt, .eq] ↔ x ≤ y := by
    simp only [List.mem_cons, List.not_mem_nil, or_false, order_lt_iff, order_eq_iff,
      le_iff_lt_or_eq]
  let held : SqlValue → Prop := fun a => a.kind = y.kind
  simp only [holds_false_iff, kinds]
  -- upper bounds are lower bounds of the reversed order
  cases op1 <;> cases op2 <;> try exact absurd rfl ops
  · exact (@OrderProbes.closed_bounds SqlValueᵒᵈ _ held x y rfl).trans above.symm
  · exact (@OrderProbes.mixed_bounds SqlValueᵒᵈ _ held x y rfl).trans notBelow.symm
  · exact (@OrderProbes.open_bounds SqlValueᵒᵈ _ held x y kinds).trans above.symm
  · exact (@OrderProbes.closed_bounds SqlValue _ held x y rfl).trans below.symm
  · exact (@OrderProbes.mixed_bounds SqlValue _ held x y rfl).trans notAbove.symm
  · exact (@OrderProbes.open_bounds SqlValue _ held x y kinds).trans below.symm

theorem compare_literal_false {op : CheckOp} {v : Option SqlValue} {literal : CheckLiteral}
    {x : SqlValue} (value : literal.value = some x) :
    compareTruth op v literal.value = some false ↔
      ∃ a, v = some a ∧ a.kind = x.kind ∧ op.holds (orderOf a x) = false := by
  rw [compare_false_iff, value]
  simp

theorem compare_strengthens_iff {column : String} {op1 op2 : CheckOp} {v1 v2 : CheckLiteral}
    (same : SameKind v1 v2) (ops : StricterOrder op1 op2 ≠ []) :
    Strengthens (.compare column op1 v1) (.compare column op2 v2) ↔
      ValuesLie (StricterOrder op1 op2) v1 v2 := by
  obtain ⟨x, y, left, right, kinds⟩ := kind_of_same same
  have cells : Strengthens (.compare column op1 v1) (.compare column op2 v2) ↔ _ :=
    strengthens_values (fun row => compare_literal_false left)
      (fun row => compare_literal_false right)
  rw [values_lie_iff left right kinds, ← stricter_bounds_iff kinds ops, cells]
  constructor
  · rintro ⟨all, a, ⟨kind, lost⟩, kept⟩
    refine ⟨fun b kind rejected => (all b ⟨kind, rejected⟩).2, a, kind, lost, fun rejected => ?_⟩
    exact kept ⟨kind.trans kinds.symm, rejected⟩
  · rintro ⟨all, a, kind, lost, kept⟩
    exact ⟨fun b ⟨kind, rejected⟩ => ⟨kind.trans kinds, all b kind rejected⟩, a, ⟨kind, lost⟩,
      fun rejected => kept rejected.2⟩

/-- A comparison with NULL is never false. -/
theorem null_not_stricter {column : String} {op : CheckOp} {old : CheckExpr} :
    ¬ Strengthens old (.compare column op .null) := by
  rintro ⟨-, row, -, lost⟩
  rw [CheckExpr.truth, compare_false_iff] at lost
  obtain ⟨a, b, -, none, -⟩ := lost
  cases none

theorem compare_classified {op1 op2 : CheckOp} {v1 v2 : CheckLiteral}
    {kind : CheckStrengtheningKind} (found : compareStrictness op1 v1 op2 v2 = some kind) :
    StricterOrder op1 op2 ≠ [] ∧ (kind = .boundaryTightened ∨ kind = .operatorTightened) ∧
      (SameKind v1 v2 ∨ v1 = .null ∧ v2 = .null) := by
  unfold compareStrictness at found
  split at found
  · cases found
  · split at found
    · rename_i same
      subst same
      split at found
      case h_5 => cases found
      all_goals
        cases found
        exact ⟨by decide, .inl rfl, .inl (cmp_value_kind (by assumption))⟩
    · split at found
      · rename_i close
        split at found
        case h_3 => cases found
        all_goals
          cases found
          exact ⟨by decide, .inr rfl, approx_kind close⟩
      · cases found

theorem compare_right_iff {column : String} {op1 op2 : CheckOp} {v1 v2 : CheckLiteral}
    {kind : CheckStrengtheningKind} (found : compareStrictness op1 v1 op2 v2 = some kind) :
    Strengthens (.compare column op1 v1) (.compare column op2 v2) ↔
      ValuesLie (StricterOrder op1 op2) v1 v2 := by
  obtain ⟨ops, -, same | ⟨rfl, rfl⟩⟩ := compare_classified found
  · exact compare_strengthens_iff same ops
  · refine iff_of_false null_not_stricter ?_
    rintro ⟨x, y, order, none, -⟩
    cases none

/-! Ranges -/

theorem between_literals_false {column : String} {low high : CheckLiteral} {l h : SqlValue}
    (lower : low.value = some l) (upper : high.value = some h) (row : CheckRow) :
    (CheckExpr.between column low high false).truth row = some false ↔
      ∃ a, row column = some a ∧ (a.kind = l.kind ∧ a < l ∨ a.kind = h.kind ∧ h < a) := by
  have split : (CheckExpr.between column low high false).truth row =
      and (compareTruth .ge (row column) low.value) (compareTruth .le (row column) high.value) := rfl
  rw [split, and_false_iff, compare_literal_false lower, compare_literal_false upper]
  simp only [holds_false_iff]
  constructor
  · rintro (⟨a, given, below⟩ | ⟨a, given, above⟩)
    · exact ⟨a, given, .inl below⟩
    · exact ⟨a, given, .inr above⟩
  · rintro ⟨a, given, below | above⟩
    · exact .inl ⟨a, given, below⟩
    · exact .inr ⟨a, given, above⟩

/-- The bounds of the old range and of the new one, by their values: the new range lies in
    the old one, which is not empty, and an empty new range does so, too. -/
def RangeInside (low1 high1 low2 high2 : CheckLiteral) : Prop :=
  ∃ l1 h1 l2 h2, low1.value = some l1 ∧ high1.value = some h1 ∧ low2.value = some l2 ∧
    high2.value = some h2 ∧
    if l1.kind = h1.kind then l1 ≤ h1 ∧ (h2 < l2 ∨ l1 ≤ l2 ∧ h2 ≤ h1) else l1 ≤ l2 ∧ h2 ≤ h1

theorem range_inside_iff {l1 h1 l2 h2 : SqlValue} (lows : l1.kind = l2.kind)
    (highs : h1.kind = h2.kind) (apart : l1 ≠ l2 ∨ h1 ≠ h2) :
    ((∀ a : SqlValue, a.kind = l1.kind ∧ a < l1 ∨ a.kind = h1.kind ∧ h1 < a →
        a.kind = l2.kind ∧ a < l2 ∨ a.kind = h2.kind ∧ h2 < a) ∧
      ∃ a : SqlValue, (a.kind = l2.kind ∧ a < l2 ∨ a.kind = h2.kind ∧ h2 < a) ∧
        ¬ (a.kind = l1.kind ∧ a < l1 ∨ a.kind = h1.kind ∧ h1 < a)) ↔
      if l1.kind = h1.kind then l1 ≤ h1 ∧ (h2 < l2 ∨ l1 ≤ l2 ∧ h2 ≤ h1) else l1 ≤ l2 ∧ h2 ≤ h1 := by
  by_cases same : l1.kind = h1.kind
  · rw [if_pos same]
    simp only [← lows, ← highs, ← same, ← and_or_left]
    constructor
    · rintro ⟨all, a, ⟨kind, -⟩, kept⟩
      have inside : ¬ (a < l1 ∨ h1 < a) := fun outside => kept ⟨kind, outside⟩
      obtain ⟨above, below⟩ := not_or.mp inside
      refine ⟨(not_lt.mp above).trans (not_lt.mp below), or_iff_not_imp_left.mpr fun inhabited => ?_⟩
      constructor
      · by_contra outside
        obtain less | less := (all l2 ⟨lows.symm, .inl (not_le.mp outside)⟩).2
        · exact lt_irrefl l2 less
        · exact inhabited less
      · by_contra outside
        obtain less | less := (all h2 ⟨(same.trans highs).symm, .inr (not_le.mp outside)⟩).2
        · exact inhabited less
        · exact lt_irrefl h2 less
    · rintro ⟨inhabited, empty | ⟨above, below⟩⟩
      · refine ⟨fun a rejected => ⟨rejected.1, ?_⟩, l1, ⟨rfl, ?_⟩, fun rejected => ?_⟩
        · exact (lt_or_ge a l2).imp_right empty.trans_le
        · exact (lt_or_ge l1 l2).imp_right empty.trans_le
        · exact rejected.2.elim (lt_irrefl l1) (not_lt.mpr inhabited)
      · refine ⟨fun a rejected => ⟨rejected.1, ?_⟩, ?_⟩
        · exact rejected.2.imp (fun less => less.trans_le above) below.trans_lt
        · obtain low | high := apart
          · refine ⟨l1, ⟨rfl, .inl (lt_of_le_of_ne above low)⟩, fun rejected => ?_⟩
            exact rejected.2.elim (lt_irrefl l1) (not_lt.mpr inhabited)
          · refine ⟨h1, ⟨same.symm, .inr (lt_of_le_of_ne below high.symm)⟩, fun rejected => ?_⟩
            exact rejected.2.elim (not_lt.mpr inhabited) (lt_irrefl h1)
  · rw [if_neg same]
    constructor
    · rintro ⟨all, -⟩
      constructor
      · by_contra outside
        obtain ⟨-, less⟩ | ⟨kind, -⟩ := all l2 (.inl ⟨lows.symm, not_le.mp outside⟩)
        · exact lt_irrefl l2 less
        · exact same (lows.trans (kind.trans highs.symm))
      · by_contra outside
        obtain ⟨kind, -⟩ | ⟨-, less⟩ := all h2 (.inr ⟨highs.symm, not_le.mp outside⟩)
        · exact same (lows.trans (kind.symm.trans highs.symm))
        · exact lt_irrefl h2 less
    · rintro ⟨above, below⟩
      refine ⟨fun a rejected => ?_, ?_⟩
      · exact rejected.imp (fun low => ⟨low.1.trans lows, low.2.trans_le above⟩)
          fun high => ⟨high.1.trans highs, below.trans_lt high.2⟩
      · obtain low | high := apart
        · refine ⟨l1, .inl ⟨lows, lt_of_le_of_ne above low⟩, ?_⟩
          rintro (⟨-, less⟩ | ⟨kind, -⟩)
          · exact lt_irrefl l1 less
          · exact same kind
        · refine ⟨h1, .inr ⟨highs, lt_of_le_of_ne below high.symm⟩, ?_⟩
          rintro (⟨kind, -⟩ | ⟨-, less⟩)
          · exact same kind.symm
          · exact lt_irrefl h1 less

theorem compared_apart {a b : CheckLiteral} {order : Ordering} {x y : SqlValue}
    (left : a.WellQuoted) (right : b.WellQuoted) (compared : a.cmpValue b = some order)
    (apart : order ≠ .eq) (valueA : a.value = some x) (valueB : b.value = some y) : x ≠ y := by
  rintro rfl
  cases cmp_value_kind compared with
  | numbers p q =>
    rename_i p' q'
    rw [number_value p] at valueA
    rw [number_value q] at valueB
    obtain rfl := Option.some.inj valueA
    obtain rfl := SqlValue.number.inj (Option.some.inj valueB)
    obtain ⟨found, same, less, greater⟩ := number_order p q
    obtain rfl := Option.some.inj (compared.symm.trans same)
    cases order with
    | lt => exact lt_irrefl _ (less rfl)
    | eq => exact apart rfl
    | gt => exact lt_irrefl _ (greater rfl)
  | strings q r =>
    obtain rfl := Option.some.inj valueA
    have content := SqlValue.text.inj (Option.some.inj valueB)
    have same := (string_order left right).2.mpr content.symm
    rw [CheckLiteral.cmpValue, order_eq_iff.mpr same] at compared
    exact apart (Option.some.inj compared).symm
  | bools b c =>
    obtain rfl := Option.some.inj valueA
    obtain rfl := SqlValue.bool.inj (Option.some.inj valueB)
    rw [CheckLiteral.cmpValue, order_eq_iff.mpr rfl] at compared
    exact apart (Option.some.inj compared).symm

theorem between_right_iff {column : String} {low1 high1 low2 high2 : CheckLiteral}
    (quoted : low1.WellQuoted ∧ high1.WellQuoted ∧ low2.WellQuoted ∧ high2.WellQuoted)
    (found : betweenIsNarrower low1 high1 low2 high2 = true) :
    Strengthens (.between column low1 high1 false) (.between column low2 high2 false) ↔
      RangeInside low1 high1 low2 high2 := by
  unfold betweenIsNarrower at found
  split at found
  · rename_i low high lowCompared highCompared
    simp only [Bool.and_eq_true, Bool.decide_or, Bool.or_eq_true, decide_eq_true_eq] at found
    obtain ⟨l1, l2, lower1, lower2, lows⟩ := kind_of_same (cmp_value_kind lowCompared)
    obtain ⟨h1, h2, upper1, upper2, highs⟩ := kind_of_same (cmp_value_kind highCompared)
    have apart : l1 ≠ l2 ∨ h1 ≠ h2 := by
      refine found.2.imp (fun less => ?_) fun greater => ?_
      · exact compared_apart quoted.1 quoted.2.2.1 lowCompared (by rw [less]; decide) lower1 lower2
      · exact compared_apart quoted.2.1 quoted.2.2.2 highCompared (by rw [greater]; decide) upper1
          upper2
    have cells : Strengthens (.between column low1 high1 false) (.between column low2 high2 false) ↔
        _ := strengthens_values (between_literals_false lower1 upper1)
          (between_literals_false lower2 upper2)
    rw [cells, range_inside_iff lows highs apart]
    constructor
    · intro inside
      exact ⟨l1, h1, l2, h2, lower1, upper1, lower2, upper2, inside⟩
    · rintro ⟨l1', h1', l2', h2', lower1', upper1', lower2', upper2', inside⟩
      obtain rfl := Option.some.inj (lower1.symm.trans lower1')
      obtain rfl := Option.some.inj (upper1.symm.trans upper1')
      obtain rfl := Option.some.inj (lower2.symm.trans lower2')
      obtain rfl := Option.some.inj (upper2.symm.trans upper2')
      exact inside
  · cases found

/-! Lists -/

theorem list_literals_false {column : String} {values : List CheckLiteral} (some_value : values ≠ [])
    (row : CheckRow) : (CheckExpr.in column values false).truth row = some false ↔
      ∃ a, row column = some a ∧ ∀ m ∈ values, m.HasKind a.kind ∧ m.value ≠ some a := by
  have split : (CheckExpr.in column values false).truth row =
      any (values.map fun value => compareTruth .eq (row column) value.value) := rfl
  rw [split, any_false_iff, List.forall_mem_map]
  obtain ⟨first, mem⟩ := List.exists_mem_of_ne_nil values some_value
  constructor
  · intro each
    obtain ⟨a, -, given, -⟩ := compare_false_iff.mp (each first mem)
    refine ⟨a, given, fun m held => ?_⟩
    obtain ⟨a', b, given', value, kinds, apart⟩ := compare_false_iff.mp (each m held)
    obtain rfl := Option.some.inj (given.symm.trans given')
    refine ⟨⟨b, value, kinds.symm⟩, fun same => ?_⟩
    rw [value] at same
    exact holds_false_iff.mp apart (Option.some.inj same).symm
  · rintro ⟨a, given, each⟩ m held
    obtain ⟨⟨b, value, kinds⟩, apart⟩ := each m held
    refine compare_false_iff.mpr ⟨a, b, given, value, kinds.symm, holds_false_iff.mpr ?_⟩
    rintro rfl
    exact apart value

/-- The members of the new list are of one kind. If those of the old one are so too, each new
    member has the value of an old one and some old value is gone; if not, some value of that
    kind is not listed any more. -/
def ListInside (values1 values2 : List CheckLiteral) : Prop :=
  ∃ kind, (∀ m ∈ values2, m.HasKind kind) ∧
    ((∀ m ∈ values1, m.HasKind kind) →
      (∀ m ∈ values2, ∃ m' ∈ values1, m'.value = m.value) ∧
        ∃ m' ∈ values1, ∀ m ∈ values2, m.value ≠ m'.value) ∧
    (¬ (∀ m ∈ values1, m.HasKind kind) →
      ¬ (kind = .bool ∧ ∀ b, .bool b ∈ values2))

theorem bool_literal {m : CheckLiteral} {b : Bool} (value : m.value = some (.bool b)) :
    m = .bool b := by
  cases m <;> cases value
  rfl

/-- Some value of a kind is not listed, unless the list holds both booleans. -/
theorem unlisted_value (kind : SqlKind) (values : List CheckLiteral)
    (room : ¬ (kind = .bool ∧ ∀ b, .bool b ∈ values)) :
    ∃ a : SqlValue, a.kind = kind ∧ ∀ m ∈ values, m.value ≠ some a := by
  have fresh : ∀ make : ℕ → SqlValue, Function.Injective make →
      ∃ n, ∀ m ∈ values, m.value ≠ some (make n) := by
    intro make injective
    have infinite : (Set.range fun n => some (make n)).Infinite :=
      Set.infinite_range_of_injective fun m n same => injective (Option.some.inj same)
    obtain ⟨_, ⟨n, rfl⟩, absent⟩ :=
      infinite.exists_notMem_finset (values.map CheckLiteral.value).toFinset
    refine ⟨n, fun m mem value => absent (List.mem_toFinset.mpr ?_)⟩
    exact List.mem_map.mpr ⟨m, mem, value⟩
  cases kind with
  | number =>
    obtain ⟨n, apart⟩ := fresh (fun n => .number n) fun m n same =>
      Nat.cast_injective (SqlValue.number.inj same)
    exact ⟨_, rfl, apart⟩
  | text =>
    obtain ⟨n, apart⟩ := fresh (fun n => .text (List.replicate n 'a')) fun m n same =>
      List.replicate_left_injective 'a' (SqlValue.text.inj same)
    exact ⟨_, rfl, apart⟩
  | bool =>
    have some_bool : ∃ b, CheckLiteral.bool b ∉ values := by
      by_contra all
      push Not at all
      exact room ⟨rfl, all⟩
    obtain ⟨b, absent⟩ := some_bool
    refine ⟨.bool b, rfl, fun m mem value => absent ?_⟩
    rw [← bool_literal value]
    exact mem

theorem list_inside_iff {values1 values2 : List CheckLiteral} (some_value : values2 ≠ [])
    (kinds : ∀ m ∈ values2, ∃ m' ∈ values1, ∀ kind, m.HasKind kind → m'.HasKind kind) :
    ((∀ a : SqlValue, (∀ m ∈ values1, m.HasKind a.kind ∧ m.value ≠ some a) →
        ∀ m ∈ values2, m.HasKind a.kind ∧ m.value ≠ some a) ∧
      ∃ a : SqlValue, (∀ m ∈ values2, m.HasKind a.kind ∧ m.value ≠ some a) ∧
        ¬ ∀ m ∈ values1, m.HasKind a.kind ∧ m.value ≠ some a) ↔ ListInside values1 values2 := by
  constructor
  · rintro ⟨all, a, lost, kept⟩
    refine ⟨a.kind, fun m mem => (lost m mem).1, fun old => ⟨fun m mem => ?_, ?_⟩, ?_⟩
    · obtain ⟨x, value, kind⟩ := (lost m mem).1
      by_contra gone
      push Not at gone
      refine (all x (fun m' mem' => ⟨kind ▸ old m' mem', fun same => ?_⟩) m mem).2 value
      exact gone m' mem' (same.trans value.symm)
    · push Not at kept
      obtain ⟨m', mem', same⟩ := kept
      exact ⟨m', mem', fun m mem => (same (old m' mem')) ▸ (lost m mem).2⟩
    · rintro - ⟨kind, both⟩
      cases a with
      | bool b => exact (lost _ (both b)).2 rfl
      | number q => cases kind
      | text s => cases kind
  · rintro ⟨kind, new, one, several⟩
    by_cases old : ∀ m ∈ values1, m.HasKind kind
    · obtain ⟨within, m', mem', gone⟩ := one old
      obtain ⟨x, value, rfl⟩ := old m' mem'
      refine ⟨fun a rejected m mem => ?_, x, fun m mem => ⟨new m mem, fun same => ?_⟩, fun all => ?_⟩
      · obtain ⟨m1, mem1, same⟩ := within m mem
        obtain ⟨⟨y, valueY, kindY⟩, apart⟩ := rejected m1 mem1
        exact ⟨⟨y, same ▸ valueY, kindY⟩, same ▸ apart⟩
      · exact gone m mem (same.trans value.symm)
      · exact (all m' mem').2 value
    · have mixed : ∀ k, (∀ m ∈ values1, m.HasKind k) → False := by
        intro k all
        obtain ⟨m, mem⟩ := List.exists_mem_of_ne_nil values2 some_value
        obtain ⟨m', mem', same⟩ := kinds m mem
        obtain ⟨x, value, kindX⟩ := all m' mem'
        obtain ⟨y, value', kindY⟩ := same kind (new m mem)
        obtain rfl := Option.some.inj (value.symm.trans value')
        obtain rfl : k = kind := kindX.symm.trans kindY
        exact old all
      obtain ⟨a, rfl, apart⟩ := unlisted_value kind values2 (several old)
      refine ⟨fun b rejected => (mixed _ fun m mem => (rejected m mem).1).elim, a,
        fun m mem => ⟨new m mem, apart m mem⟩, fun all => mixed _ fun m mem => (all m mem).1⟩

theorem approx_has_kind {a b : CheckLiteral} (close : a.approxEq b = true) {kind : SqlKind}
    (left : a.HasKind kind) : b.HasKind kind := by
  obtain same | ⟨rfl, rfl⟩ := approx_kind close
  · obtain ⟨x, y, valueA, valueB, kinds⟩ := kind_of_same same
    obtain ⟨x', value, kind⟩ := left
    obtain rfl := Option.some.inj (valueA.symm.trans value)
    exact ⟨y, valueB, kinds.symm.trans kind⟩
  · exact left

theorem in_right_iff {column : String} {values1 values2 : List CheckLiteral}
    (found : inIsStrictSubset values2 values1 = true) :
    Strengthens (.in column values1 false) (.in column values2 false) ↔
      ListInside values1 values2 := by
  simp only [inIsStrictSubset, Bool.and_eq_true, decide_eq_true_eq, Bool.not_eq_true',
    List.isEmpty_eq_false_iff, List.all_eq_true, List.any_eq_true] at found
  obtain ⟨⟨shorter, some_value⟩, each⟩ := found
  have some_old : values1 ≠ [] := by
    rintro rfl
    cases shorter
  have cells : Strengthens (.in column values1 false) (.in column values2 false) ↔ _ :=
    strengthens_values (list_literals_false some_old) (list_literals_false some_value)
  rw [cells]
  refine list_inside_iff some_value fun m mem => ?_
  obtain ⟨m', mem', close⟩ := each m mem
  exact ⟨m', mem', fun kind => approx_has_kind close⟩

/-! Parts -/

/-- Two parts that count as equal, and have the same values where they have literals: floats of
    one rounding may be spelled with different digits. -/
def SameValues (p q : CheckExpr) : Prop :=
  p.eqv q = true ∧ p.literals.map CheckLiteral.value = q.literals.map CheckLiteral.value

instance (p q : CheckExpr) : Decidable (SameValues p q) := inferInstanceAs (Decidable (_ ∧ _))

theorem eqv_literal_count {xs ys : List CheckLiteral} (same : literalsEqv xs ys = true) :
    xs.length = ys.length := by
  induction xs generalizing ys with
  | nil =>
    cases ys with
    | nil => rfl
    | cons y ys => cases same
  | cons x xs ih =>
    cases ys with
    | nil => cases same
    | cons y ys =>
      rw [literalsEqv, Bool.and_eq_true] at same
      rw [List.length_cons, List.length_cons, ih same.2]

section SameTruth
variable (row : CheckRow)

mutual

theorem same_truth (p q : CheckExpr) (same : p.eqv q = true) :
    p.literals.length = q.literals.length ∧
      (p.literals.map CheckLiteral.value = q.literals.map CheckLiteral.value →
        p.truth row = q.truth row) := by
  match p with
  | .compare column op value =>
    cases q <;> simp [CheckExpr.eqv] at same
    obtain ⟨⟨rfl, rfl⟩, -⟩ := same
    simp only [CheckExpr.literals, CheckExpr.truth, List.map_cons, List.map_nil, List.cons.injEq,
      and_true, List.length_cons, true_and]
    exact fun value => by rw [value]
  | .in column values negated =>
    cases q <;> simp [CheckExpr.eqv] at same
    obtain ⟨⟨rfl, listed⟩, rfl⟩ := same
    refine ⟨eqv_literal_count listed, fun values => ?_⟩
    have cells := congrArg (List.map (compareTruth .eq (row column))) values
    simp only [CheckExpr.literals, List.map_map] at cells
    rw [CheckExpr.truth, CheckExpr.truth]
    exact congrArg (negateIf _ ∘ any) cells
  | .between column low high negated =>
    cases q <;> simp [CheckExpr.eqv] at same
    obtain ⟨⟨⟨rfl, -⟩, -⟩, rfl⟩ := same
    simp only [CheckExpr.literals, CheckExpr.truth, List.map_cons, List.map_nil, List.cons.injEq,
      and_true, List.length_cons, true_and]
    exact fun values => by rw [values.1, values.2]
  | .isNull column negated =>
    cases q <;> simp [CheckExpr.eqv] at same
    obtain ⟨rfl, rfl⟩ := same
    exact ⟨rfl, fun _ => rfl⟩
  | .and parts =>
    cases q <;> simp [CheckExpr.eqv] at same
    obtain ⟨count, truth⟩ := same_truths parts _ same
    exact ⟨count, fun values => by rw [CheckExpr.truth, CheckExpr.truth, truth values]⟩
  | .or parts =>
    cases q <;> simp [CheckExpr.eqv] at same
    obtain ⟨count, truth⟩ := same_truths parts _ same
    exact ⟨count, fun values => by rw [CheckExpr.truth, CheckExpr.truth, truth values]⟩
  | .not inner =>
    cases q <;> simp [CheckExpr.eqv] at same
    obtain ⟨count, truth⟩ := same_truth inner _ same
    exact ⟨count, fun values => by rw [CheckExpr.truth, CheckExpr.truth, truth values]⟩
  | .unparseable =>
    cases q <;> simp [CheckExpr.eqv] at same
    exact ⟨rfl, fun _ => rfl⟩

theorem same_truths (ps qs : List CheckExpr) (same : partsEqv ps qs = true) :
    (literalsOf ps).length = (literalsOf qs).length ∧
      ((literalsOf ps).map CheckLiteral.value = (literalsOf qs).map CheckLiteral.value →
        truths row ps = truths row qs) := by
  match ps, qs with
  | [], [] => exact ⟨rfl, fun _ => rfl⟩
  | [], _ :: _ => cases same
  | _ :: _, [] => cases same
  | p :: ps, q :: qs =>
    rw [partsEqv, Bool.and_eq_true] at same
    obtain ⟨count, truth⟩ := same_truth p q same.1
    obtain ⟨counts, later⟩ := same_truths ps qs same.2
    refine ⟨by simp [literalsOf, count, counts], fun values => ?_⟩
    rw [literalsOf, literalsOf, List.map_append, List.map_append] at values
    obtain ⟨here, there⟩ := List.append_inj values (by simpa using count)
    rw [truths, truths, truth here, later there]

end

theorem SameValues.truth {row : CheckRow} {p q : CheckExpr} (same : SameValues p q) :
    p.truth row = q.truth row := (same_truth row p q same.1).2 same.2

end SameTruth

def CheckExpr.conjuncts : CheckExpr → List CheckExpr
  | .and parts => parts
  | expr => [expr]

theorem part_within {part : CheckExpr} {parts : List CheckExpr} (mem : part ∈ parts) :
    part.Within (.and parts) ∧ part.Within (.or parts) := by
  have literals : part.literals ⊆ literalsOf parts := fun _ here =>
    mem_literals_of.mpr ⟨part, mem, here⟩
  have columns : part.columnNames ⊆ columnNamesOf parts := fun _ here =>
    mem_column_names.mpr ⟨part, mem, here⟩
  exact ⟨⟨literals, columns⟩, literals, columns⟩

theorem conjunct_within {expr part : CheckExpr} (mem : part ∈ expr.conjuncts) :
    part.Within expr := by
  unfold CheckExpr.conjuncts at mem
  split at mem
  · exact (part_within mem).1
  · obtain rfl := List.mem_singleton.mp mem
    exact ⟨List.Subset.refl _, List.Subset.refl _⟩

theorem conjuncts_false {row : CheckRow} (expr : CheckExpr) :
    expr.truth row = some false ↔ ∃ part ∈ expr.conjuncts, part.truth row = some false := by
  unfold CheckExpr.conjuncts
  split
  · rw [CheckExpr.truth, all_false_iff, truths_eq]
    simp
  · simp

theorem disjuncts_false {row : CheckRow} (parts : List CheckExpr) :
    (CheckExpr.or parts).truth row = some false ↔ ∀ part ∈ parts, part.truth row = some false := by
  rw [CheckExpr.truth, any_false_iff, truths_eq, List.forall_mem_map]

/-- Each old conjunct stands in the new expression; with other digits of the same floats, it is
    false only where a new conjunct is. On some probe an added conjunct is false and no old
    one is. -/
structure ConjunctsAdded (old new : CheckExpr) : Prop where
  kept : ∀ p ∈ old.conjuncts, ∃ q ∈ new.conjuncts, q.eqv p = true ∧ (SameValues q p ∨
    ∀ row ∈ pairProbes old new, p.truth row = some false →
      ∃ q ∈ new.conjuncts, q.truth row = some false)
  added : ∃ row ∈ pairProbes old new, (∀ p ∈ old.conjuncts, p.truth row ≠ some false) ∧
    ∃ q ∈ new.conjuncts, (∀ p ∈ old.conjuncts, ¬ SameValues q p) ∧ q.truth row = some false

theorem conjuncts_added_iff {old new : CheckExpr}
    (stand : ∀ p ∈ old.conjuncts, ∃ q ∈ new.conjuncts, q.eqv p = true) :
    Strengthens old new ↔ ConjunctsAdded old new := by
  constructor
  · rintro ⟨all, row, kept, lost⟩
    constructor
    · intro p mem
      obtain ⟨q, there, same⟩ := stand p mem
      refine ⟨q, there, same, .inr fun probe _ rejected => ?_⟩
      by_contra accepted
      exact all probe (mt (conjuncts_false new).mp accepted)
        ((conjuncts_false old).mpr ⟨p, mem, rejected⟩)
    · obtain ⟨probe, known, same⟩ := pair_probe old new row
      have clear : ∀ p ∈ old.conjuncts, p.truth probe ≠ some false := by
        intro p mem rejected
        rw [← same p (.inl (conjunct_within mem))] at rejected
        exact kept ((conjuncts_false old).mpr ⟨p, mem, rejected⟩)
      obtain ⟨q, mem, rejected⟩ := (conjuncts_false new).mp lost
      rw [same q (.inr (conjunct_within mem))] at rejected
      exact ⟨probe, known, clear, q, mem,
        fun p own stands => clear p own (stands.truth ▸ rejected), rejected⟩
  · rintro ⟨kept, probe, -, clear, q, mem, -, rejected⟩
    refine ⟨fun row accepted lost => ?_, probe, ?_, (conjuncts_false new).mpr ⟨q, mem, rejected⟩⟩
    · obtain ⟨p, own, rejected⟩ := (conjuncts_false old).mp lost
      refine accepted ((conjuncts_false new).mpr ?_)
      obtain ⟨q, mem, -, stands | implied⟩ := kept p own
      · exact ⟨q, mem, stands.truth.trans rejected⟩
      · obtain ⟨probe, known, same⟩ := pair_probe old new row
        rw [same p (.inl (conjunct_within own))] at rejected
        obtain ⟨q, mem, there⟩ := implied probe known rejected
        exact ⟨q, mem, (same q (.inr (conjunct_within mem))).trans there⟩
    · intro lost
      obtain ⟨p, own, rejected⟩ := (conjuncts_false old).mp lost
      exact clear p own rejected

/-- Each new disjunct stood in the old expression; with other digits of the same floats, it is
    false where all old disjuncts are. On some probe a removed disjunct is not false and every
    new one is. -/
structure DisjunctsRemoved (oldParts newParts : List CheckExpr) : Prop where
  kept : ∀ q ∈ newParts, ∃ p ∈ oldParts, p.eqv q = true ∧ (SameValues p q ∨
    ∀ row ∈ pairProbes (.or oldParts) (.or newParts),
      (∀ p ∈ oldParts, p.truth row = some false) → q.truth row = some false)
  removed : ∃ row ∈ pairProbes (.or oldParts) (.or newParts),
    (∀ q ∈ newParts, q.truth row = some false) ∧
      ∃ p ∈ oldParts, (∀ q ∈ newParts, ¬ SameValues p q) ∧ p.truth row ≠ some false

theorem disjuncts_removed_iff {oldParts newParts : List CheckExpr}
    (stand : ∀ q ∈ newParts, ∃ p ∈ oldParts, p.eqv q = true) :
    Strengthens (.or oldParts) (.or newParts) ↔ DisjunctsRemoved oldParts newParts := by
  simp only [Strengthens, ne_eq, disjuncts_false, not_imp_not]
  constructor
  · rintro ⟨all, row, kept, lost⟩
    constructor
    · intro q mem
      obtain ⟨p, there, same⟩ := stand q mem
      exact ⟨p, there, same, .inr fun probe _ rejected => all probe rejected q mem⟩
    · obtain ⟨probe, known, same⟩ := pair_probe (.or oldParts) (.or newParts) row
      have rejected : ∀ q ∈ newParts, q.truth probe = some false := fun q mem =>
        (same q (.inr (part_within mem).2)).symm.trans (lost q mem)
      push Not at kept
      obtain ⟨p, own, accepted⟩ := kept
      rw [same p (.inl (part_within own).2)] at accepted
      exact ⟨probe, known, rejected, p, own,
        fun q mem stands => accepted (stands.truth.trans (rejected q mem)), accepted⟩
  · rintro ⟨kept, probe, -, rejected, p, own, -, accepted⟩
    refine ⟨fun row lost q mem => ?_, probe, fun lost => accepted (lost p own), rejected⟩
    obtain ⟨p, own, -, stands | implied⟩ := kept q mem
    · exact stands.truth.symm.trans (lost p own)
    · obtain ⟨probe, known, same⟩ := pair_probe (.or oldParts) (.or newParts) row
      rw [same q (.inr (part_within mem).2)]
      refine implied probe known fun p own => ?_
      rw [← same p (.inl (part_within own).2)]
      exact lost p own

/-! All kinds -/

/-- When a strengthening is reported rightly, by its kind. -/
def RightlyStricter : CheckStrengtheningKind → CheckExpr → CheckExpr → Prop
  | .boundaryTightened, .compare _ op1 v1, .compare _ op2 v2
  | .operatorTightened, .compare _ op1 v1, .compare _ op2 v2 =>
      ValuesLie (StricterOrder op1 op2) v1 v2
  | .inListShrunk, .in _ values1 _, .in _ values2 _ => ListInside values1 values2
  | .betweenNarrowed, .between _ low1 high1 _, .between _ low2 high2 _ =>
      RangeInside low1 high1 low2 high2
  | .conjunctAdded, old, new => ConjunctsAdded old new
  | .disjunctRemoved, .or oldParts, .or newParts => DisjunctsRemoved oldParts newParts
  | _, _, _ => False

theorem pair_right_iff {old new : CheckExpr} {kind : CheckStrengtheningKind}
    (old_quoted : ∀ value ∈ old.literals, value.WellQuoted)
    (new_quoted : ∀ value ∈ new.literals, value.WellQuoted)
    (found : classifyPair old new = some kind) :
    Strengthens old new ↔ RightlyStricter kind old new := by
  unfold classifyPair at found
  split at found
  · split at found
    · rename_i same
      subst same
      rw [compare_right_iff found]
      obtain ⟨-, rfl | rfl, -⟩ := compare_classified found <;> rfl
    · cases found
  · obtain ⟨⟨rfl, subset⟩, same⟩ := Option.ite_none_right_eq_some.mp found
    cases same
    exact in_right_iff subset
  · obtain ⟨⟨rfl, narrower⟩, same⟩ := Option.ite_none_right_eq_some.mp found
    cases same
    refine between_right_iff ⟨?_, ?_, ?_, ?_⟩ narrower
    · exact old_quoted _ (by simp [CheckExpr.literals])
    · exact old_quoted _ (by simp [CheckExpr.literals])
    · exact new_quoted _ (by simp [CheckExpr.literals])
    · exact new_quoted _ (by simp [CheckExpr.literals])
  · obtain ⟨⟨-, stand⟩, same⟩ := Option.ite_none_right_eq_some.mp found
    cases same
    exact conjuncts_added_iff (by simpa [CheckExpr.conjuncts] using stand)
  · obtain ⟨⟨-, -, stand⟩, same⟩ := Option.ite_none_right_eq_some.mp found
    cases same
    exact disjuncts_removed_iff (by simpa using stand)
  · rename_i apart
    obtain ⟨⟨-, stand⟩, same⟩ := Option.ite_none_right_eq_some.mp found
    cases same
    have whole : old.conjuncts = [old] := by
      unfold CheckExpr.conjuncts
      split
      · rename_i parts
        exact absurd rfl (apart parts)
      · rfl
    refine conjuncts_added_iff ?_
    rw [whole]
    simpa [CheckExpr.conjuncts] using stand
  · cases found

/-- A reported strengthening accepts fewer rows exactly if it is right for its kind. -/
theorem strengthening_right_iff {plan : MigrationPlan} {baseline : List TableDef}
    {warning : CheckStrengtheningWarning}
    (found : warning ∈ findCheckStrengthenings plan baseline) :
    Strengthens (parseCheckExpr warning.oldExpr) (parseCheckExpr warning.newExpr) ↔
      RightlyStricter warning.kind (parseCheckExpr warning.oldExpr)
        (parseCheckExpr warning.newExpr) := by
  have classified := strengthening_classified found
  unfold classifyStrengthening at classified
  split at classified
  · cases classified
  · obtain ⟨-, rest⟩ := Option.ite_none_left_eq_some.mp classified
    obtain ⟨-, pair⟩ := Option.ite_none_left_eq_some.mp rest
    exact pair_right_iff (parsed_quoted rfl) (parsed_quoted rfl) pair

def stockTable (expr : String) : TableDef :=
  ⟨"item", none, [ColumnDef.new "stock" (.simple .integer) false],
    [.check "chk_stock" expr .deleteViolatingRows]⟩

def stockPlan (expr : String) : MigrationPlan :=
  ⟨"", none, none, 2, [.addConstraint "item" (.check "chk_stock" expr .deleteViolatingRows)]⟩

theorem higher_stock_stricter :
    findCheckStrengthenings (stockPlan "stock > 10") [stockTable "stock > 0"] =
        [⟨0, "item", "chk_stock", "stock > 0", "stock > 10", .boundaryTightened⟩] ∧
      Strengthens (parseCheckExpr "stock > 0") (parseCheckExpr "stock > 10") := by
  have found : findCheckStrengthenings (stockPlan "stock > 10") [stockTable "stock > 0"] =
      [⟨0, "item", "chk_stock", "stock > 0", "stock > 10", .boundaryTightened⟩] := by
    decide +kernel
  refine ⟨found, ?_⟩
  have listed : (⟨0, "item", "chk_stock", "stock > 0", "stock > 10", .boundaryTightened⟩ :
      CheckStrengtheningWarning) ∈
        findCheckStrengthenings (stockPlan "stock > 10") [stockTable "stock > 0"] := by
    rw [found]
    exact List.mem_singleton_self _
  refine (strengthening_right_iff listed).mpr ?_
  have old : parseCheckExpr "stock > 0" = .compare "stock" .gt (.integer 0) := by rfl
  have new : parseCheckExpr "stock > 10" = .compare "stock" .gt (.integer 10) := by rfl
  rw [old, new]
  exact ⟨.number 0, .number 10, .lt, rfl, rfl, by decide, by decide⟩

/-- The same conjunct twice accepts the same rows. -/
theorem repeated_conjunct_reported :
    findCheckStrengthenings (stockPlan "stock > 0 AND stock > 0") [stockTable "stock > 0"] =
        [⟨0, "item", "chk_stock", "stock > 0", "stock > 0 AND stock > 0", .conjunctAdded⟩] ∧
      ¬ Strengthens (parseCheckExpr "stock > 0") (parseCheckExpr "stock > 0 AND stock > 0") := by
  have old : parseCheckExpr "stock > 0" = .compare "stock" .gt (.integer 0) := by rfl
  have new : parseCheckExpr "stock > 0 AND stock > 0" =
      .and [.compare "stock" .gt (.integer 0), .compare "stock" .gt (.integer 0)] := by rfl
  refine ⟨by decide +kernel, ?_⟩
  rintro ⟨-, row, kept, lost⟩
  rw [old] at kept
  rw [new, CheckExpr.truth, all_false_iff, truths_eq] at lost
  simp only [List.map_cons, List.map_nil, List.mem_cons, List.not_mem_nil, or_false, or_self,
    exists_eq_left] at lost
  exact kept lost

end Vespertide
