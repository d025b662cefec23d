import Vespertide.CheckContradiction
import Vespertide.Support.ThreeValued

/-!
The truth of a CHECK expression over a row, and which conjuncts are rightly taken
to contradict each other.
-/
namespace Vespertide

open ThreeValued

/-! Rows -/

inductive SqlValue where
  | number (q : ℚ)
  | text (s : List Char)
  | bool (b : Bool)

/-- Values of different kinds are not compared. -/
def SqlValue.order : SqlValue → SqlValue → Option Ordering
  | .number a, .number b => some (orderOf a b)
  | .text a, .text b => some (orderOf a b)
  | .bool a, .bool b => some (orderOf a b)
  | _, _ => none

/-- The content of a quoted string: a doubled quote stands for one. -/
def stringContent (quoted : String) : List Char := Text.unquote '\'' quoted.toList.tail

def CheckLiteral.number : CheckLiteral → Option ℚ
  | .integer n => some n
  | .float text => some (decimalValue text.toList)
  | _ => none

def CheckLiteral.value : CheckLiteral → Option SqlValue
  | .integer n => some (.number n)
  | .float text => some (.number (decimalValue text.toList))
  | .string quoted => some (.text (stringContent quoted))
  | .bool b => some (.bool b)
  | .null => none

abbrev CheckRow := String → Option SqlValue

def CheckOp.holds : CheckOp → Ordering → Bool
  | .eq, order => order = .eq
  | .ne, order => order ≠ .eq
  | .lt, order => order = .lt
  | .le, order => order ≠ .gt
  | .gt, order => order = .gt
  | .ge, order => order ≠ .lt

def compareTruth (op : CheckOp) (left right : Option SqlValue) : Truth :=
  match left, right with
  | some a, some b => (a.order b).map op.holds
  | _, _ => none

def negateIf (negated : Bool) (truth : Truth) : Truth := if negated then not truth else truth

section Rows
variable (row : CheckRow)

mutual

def CheckExpr.truth : CheckExpr → Truth
  | .compare column op value => compareTruth op (row column) value.value
  | .in column values negated =>
      negateIf negated (any (values.map fun value => compareTruth .eq (row column) value.value))
  | .between column low high negated =>
      negateIf negated
        (and (compareTruth .ge (row column) low.value) (compareTruth .le (row column) high.value))
  | .isNull column negated => some ((row column).isNone != negated)
  | .and parts => all (truths parts)
  | .or parts => any (truths parts)
  | .not inner => not inner.truth
  | .unparseable => none
termination_by structural expr => expr

def truths : List CheckExpr → List Truth
  | [] => []
  | part :: rest => part.truth :: truths rest
termination_by structural parts => parts

end

theorem truths_eq (parts : List CheckExpr) : truths row parts = parts.map (CheckExpr.truth row) := by
  induction parts with
  | nil => rfl
  | cons part parts ih => rw [truths, ih, List.map_cons]

theorem and_truth_iff (parts : List CheckExpr) :
    (CheckExpr.and parts).truth row = some true ↔ ∀ part ∈ parts, part.truth row = some true := by
  rw [CheckExpr.truth, all_true_iff, truths_eq, List.forall_mem_map]

mutual

theorem flattened_true (parts : List CheckExpr)
    (holds : ∀ part ∈ parts, part.truth row = some true) :
    ∀ part ∈ flattenAnd parts, part.truth row = some true := by
  match parts with
  | [] =>
    intro part mem
    simp [flattenAnd] at mem
  | first :: rest =>
    intro part mem
    rw [flattenAnd, List.mem_append] at mem
    obtain here | later := mem
    · exact flattened_part_true first (holds first List.mem_cons_self) part here
    · exact flattened_true rest (fun p mem => holds p (List.mem_cons_of_mem _ mem)) part later

theorem flattened_part_true (whole : CheckExpr) (holds : whole.truth row = some true) :
    ∀ part ∈ flattenPart whole, part.truth row = some true := by
  match whole with
  | .and inner =>
    intro part mem
    rw [flattenPart] at mem
    exact flattened_true inner ((and_truth_iff row inner).1 holds) part mem
  | .compare .. | .in .. | .between .. | .isNull .. | .or _ | .not _ | .unparseable =>
    intro part mem
    simp only [flattenPart, List.mem_singleton] at mem
    rw [mem]
    exact holds

end

end Rows

/-! Bounds in a linear order -/

section Bounds
variable {α : Type} [LinearOrder α]

theorem eq_holds {x v : α} (holds : CheckOp.holds .eq (orderOf x v) = true) : x = v := by
  simpa [CheckOp.holds, order_eq_iff] using holds

theorem ne_holds {x v : α} (holds : CheckOp.holds .ne (orderOf x v) = true) : x ≠ v := by
  simpa [CheckOp.holds, order_eq_iff] using holds

theorem lower_holds {op : CheckOp} {x v : α} (lower : op = .gt ∨ op = .ge)
    (holds : op.holds (orderOf x v) = true) : v ≤ x ∧ (op = .gt → v < x) := by
  obtain rfl | rfl := lower
  · have above : v < x := by simpa [CheckOp.holds, order_gt_iff] using holds
    exact ⟨above.le, fun _ => above⟩
  · have notBelow : v ≤ x := by simpa [CheckOp.holds, order_lt_iff] using holds
    exact ⟨notBelow, fun same => nomatch same⟩

theorem upper_holds {op : CheckOp} {x v : α} (upper : op = .lt ∨ op = .le)
    (holds : op.holds (orderOf x v) = true) : x ≤ v ∧ (op = .lt → x < v) := by
  obtain rfl | rfl := upper
  · have below : x < v := by simpa [CheckOp.holds, order_lt_iff] using holds
    exact ⟨below.le, fun _ => below⟩
  · have notAbove : x ≤ v := by simpa [CheckOp.holds, order_gt_iff] using holds
    exact ⟨notAbove, fun same => nomatch same⟩

theorem bounds_hold {lowerOp upperOp : CheckOp} {x low high : α}
    (lower : lowerOp = .gt ∨ lowerOp = .ge) (upper : upperOp = .lt ∨ upperOp = .le)
    (above : lowerOp.holds (orderOf x low) = true) (below : upperOp.holds (orderOf x high) = true) :
    low ≤ high ∧ (lowerOp = .gt ∨ upperOp = .lt → low < high) := by
  obtain ⟨start, strictStart⟩ := lower_holds lower above
  obtain ⟨stop, strictStop⟩ := upper_holds upper below
  refine ⟨start.trans stop, ?_⟩
  intro strict
  obtain gt | lt := strict
  · exact lt_of_lt_of_le (strictStart gt) stop
  · exact lt_of_le_of_lt start (strictStop lt)

theorem lower_met {op : CheckOp} {x v : α} (lower : op = .gt ∨ op = .ge) (above : v ≤ x)
    (strict : op = .gt → v < x) : op.holds (orderOf x v) = true := by
  obtain rfl | rfl := lower
  · simpa [CheckOp.holds, order_gt_iff] using strict rfl
  · simpa [CheckOp.holds, order_lt_iff] using above

theorem upper_met {op : CheckOp} {x v : α} (upper : op = .lt ∨ op = .le) (below : x ≤ v)
    (strict : op = .lt → x < v) : op.holds (orderOf x v) = true := by
  obtain rfl | rfl := upper
  · simpa [CheckOp.holds, order_lt_iff] using strict rfl
  · simpa [CheckOp.holds, order_gt_iff] using below

theorem bounds_of_some {β : Type} {opA opB lowerOp upperOp : CheckOp} {a b low high : β}
    (pair : boundsOf opA a opB b = some (lowerOp, low, upperOp, high)) :
    (lowerOp = .gt ∨ lowerOp = .ge) ∧ (upperOp = .lt ∨ upperOp = .le) ∧
      ((opA = lowerOp ∧ a = low ∧ opB = upperOp ∧ b = high) ∨
        (opB = lowerOp ∧ b = low ∧ opA = upperOp ∧ a = high)) := by
  cases opA <;> cases opB <;> simp_all [boundsOf]

def Clash (opA : CheckOp) (a : α) (opB : CheckOp) (b : α) : Prop :=
  (opA = .eq ∧ opB = .eq ∧ a ≠ b) ∨
    ((opA = .eq ∧ opB = .ne ∨ opA = .ne ∧ opB = .eq) ∧ a = b) ∨
    ∃ lowerOp low upperOp high, boundsOf opA a opB b = some (lowerOp, low, upperOp, high) ∧
      (high < low ∨ (lowerOp = .gt ∨ upperOp = .lt) ∧ high ≤ low)

theorem Clash.unmet {opA opB : CheckOp} {a b : α} (clash : Clash opA a opB b) (x : α)
    (first : opA.holds (orderOf x a) = true) (second : opB.holds (orderOf x b) = true) : False := by
  obtain ⟨rfl, rfl, apart⟩ | ⟨ops, rfl⟩ | ⟨lowerOp, low, upperOp, high, pair, order⟩ := clash
  · exact apart ((eq_holds first).symm.trans (eq_holds second))
  · obtain ⟨rfl, rfl⟩ | ⟨rfl, rfl⟩ := ops
    · exact ne_holds second (eq_holds first)
    · exact ne_holds first (eq_holds second)
  · obtain ⟨lower, upper, sides⟩ := bounds_of_some pair
    have between : low ≤ high ∧ (lowerOp = .gt ∨ upperOp = .lt → low < high) := by
      obtain ⟨rfl, rfl, rfl, rfl⟩ | ⟨rfl, rfl, rfl, rfl⟩ := sides
      · exact bounds_hold lower upper first second
      · exact bounds_hold lower upper second first
    obtain crossed | ⟨strict, touching⟩ := order
    · exact absurd between.1 (not_le_of_gt crossed)
    · exact absurd (between.2 strict) (not_lt_of_ge touching)

end Bounds

end Vespertide
