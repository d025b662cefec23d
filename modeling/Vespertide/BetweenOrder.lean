import Vespertide.ContradictionSound

/-!
The search for `BETWEEN` predicates whose bounds are reversed, against the order
of the values that the bounds stand for.
-/
namespace Vespertide

/-! Search -/

/-- Two booleans are left alone here. -/
def literalCompare : CheckLiteral → CheckLiteral → Option Ordering
  | .bool _, .bool _ => none
  | a, b => a.cmpValue b

mutual

def collectReversedBetween : CheckExpr → List (String × CheckLiteral × CheckLiteral)
  | .between column low high false =>
      if literalCompare low high = some .gt then [(column, low, high)] else []
  | .and parts | .or parts => collectReversedIn parts
  | .not inner => collectReversedBetween inner
  | _ => []
termination_by structural expr => expr

def collectReversedIn : List CheckExpr → List (String × CheckLiteral × CheckLiteral)
  | [] => []
  | part :: rest => collectReversedBetween part ++ collectReversedIn rest
termination_by structural parts => parts

end

/-! Predicates of an expression -/

mutual

/-- The predicates that are not negated, at any depth, in the order of the text. -/
def CheckExpr.betweens : CheckExpr → List (String × CheckLiteral × CheckLiteral)
  | .between column low high negated => if negated then [] else [(column, low, high)]
  | .and parts => betweensOf parts
  | .or parts => betweensOf parts
  | .not inner => inner.betweens
  | .compare .. | .in .. | .isNull .. | .unparseable => []
termination_by structural expr => expr

def betweensOf : List CheckExpr → List (String × CheckLiteral × CheckLiteral)
  | [] => []
  | part :: rest => part.betweens ++ betweensOf rest
termination_by structural parts => parts

end

def reportsBetween (bounds : String × CheckLiteral × CheckLiteral) : Bool :=
  literalCompare bounds.2.1 bounds.2.2 = some .gt

mutual

theorem collected_filter (expr : CheckExpr) :
    collectReversedBetween expr = expr.betweens.filter reportsBetween := by
  match expr with
  | .between column low high true => rfl
  | .between column low high false =>
    by_cases reversed : literalCompare low high = some .gt <;>
      simp [collectReversedBetween, CheckExpr.betweens, reportsBetween, reversed]
  | .and parts =>
    rw [collectReversedBetween, CheckExpr.betweens]
    exact collected_in_filter parts
  | .or parts =>
    rw [collectReversedBetween, CheckExpr.betweens]
    exact collected_in_filter parts
  | .not inner =>
    rw [collectReversedBetween, CheckExpr.betweens]
    exact collected_filter inner
  | .compare .. | .in .. | .isNull .. | .unparseable => rfl

theorem collected_in_filter (parts : List CheckExpr) :
    collectReversedIn parts = (betweensOf parts).filter reportsBetween := by
  match parts with
  | [] => rfl
  | part :: rest =>
    rw [collectReversedIn, betweensOf, List.filter_append, collected_filter part,
      collected_in_filter rest]

end

mutual

theorem between_literals (expr : CheckExpr) : ∀ bounds ∈ expr.betweens,
    bounds.2.1 ∈ expr.literals ∧ bounds.2.2 ∈ expr.literals := by
  intro bounds mem
  match expr with
  | .between column low high true => cases mem
  | .between column low high false =>
    obtain rfl := List.mem_singleton.mp mem
    simp [CheckExpr.literals]
  | .and parts =>
    rw [CheckExpr.betweens] at mem
    rw [CheckExpr.literals]
    exact between_of_literals parts bounds mem
  | .or parts =>
    rw [CheckExpr.betweens] at mem
    rw [CheckExpr.literals]
    exact between_of_literals parts bounds mem
  | .not inner =>
    rw [CheckExpr.betweens] at mem
    rw [CheckExpr.literals]
    exact between_literals inner bounds mem
  | .compare .. | .in .. | .isNull .. | .unparseable => cases mem

theorem between_of_literals (parts : List CheckExpr) : ∀ bounds ∈ betweensOf parts,
    bounds.2.1 ∈ literalsOf parts ∧ bounds.2.2 ∈ literalsOf parts := by
  intro bounds mem
  match parts with
  | [] => cases mem
  | part :: rest =>
    rw [betweensOf, List.mem_append] at mem
    rw [literalsOf, List.mem_append, List.mem_append]
    obtain here | later := mem
    · obtain ⟨low, high⟩ := between_literals part bounds here
      exact ⟨.inl low, .inl high⟩
    · obtain ⟨low, high⟩ := between_of_literals rest bounds later
      exact ⟨.inr low, .inr high⟩

end

/-! Order of the bounds -/

theorem closing_injective {a b : List Char} (same : closing a = closing b) : a = b := by
  have quoted : Text.quote '\'' a = Text.quote '\'' b := by
    rw [quote_closing, quote_closing, same]
  rw [← quoted_content a, ← quoted_content b, quoted]

/-- Written texts are in the order of their contents, but for a text that goes on below
    the quote after the other. -/
theorem written_order_iff {a b : List Char} : closing b < closing a ↔
    b < a ∧ ¬ GoesOnBelowQuote b a ∨ GoesOnBelowQuote a b := by
  constructor
  · intro written
    obtain below | goesOn := closing_order a b written
    · exact .inl ⟨below, fun goesOn => lt_asymm written (goes_on_order goesOn).1⟩
    · exact .inr goesOn
  · rintro (⟨below, plain⟩ | goesOn)
    · obtain less | same | greater := lt_trichotomy (closing b) (closing a)
      · exact less
      · exact absurd below (closing_injective same ▸ lt_irrefl _)
      · obtain above | goesOn := closing_order b a greater
        · exact absurd below (lt_asymm above)
        · exact absurd goesOn plain
    · exact (goes_on_order goesOn).1

/-- One string goes on below the quote where the other ends. -/
def SkewedStrings (a b : CheckLiteral) : Prop :=
  ∃ q r, a = .string q ∧ b = .string r ∧
    (GoesOnBelowQuote (stringContent q) (stringContent r) ∨
      GoesOnBelowQuote (stringContent r) (stringContent q))

/-- The lower bound lies above the upper one: integers and strings by their values, a float
    and any other number by the floats they round to. -/
inductive Reversed : CheckLiteral → CheckLiteral → Prop where
  | integers {low high : Int} (above : high < low) : Reversed (.integer low) (.integer high)
  | rounded {low high : CheckLiteral} {p q : ℚ} (lower : low.number = some p)
      (upper : high.number = some q)
      (float : (∃ text, low = .float text) ∨ ∃ text, high = .float text)
      (above : Binary64.round q < Binary64.round p) : Reversed low high
  | strings {low high : String} (above : stringContent high < stringContent low) :
      Reversed (.string low) (.string high)

theorem string_reversed_iff {q r : String} (left : (CheckLiteral.string q).WellQuoted)
    (right : (CheckLiteral.string r).WellQuoted)
    (plain : ¬ SkewedStrings (.string q) (.string r)) :
    (CheckLiteral.string q).cmpValue (.string r) = some .gt ↔
      stringContent r < stringContent q := by
  have neither : ¬ (GoesOnBelowQuote (stringContent q) (stringContent r) ∨
      GoesOnBelowQuote (stringContent r) (stringContent q)) :=
    fun goesOn => plain ⟨q, r, rfl, rfl, goesOn⟩
  rw [CheckLiteral.cmpValue, Option.some_inj, order_gt_iff, (string_order right left).1,
    written_order_iff]
  tauto

theorem literal_compare_iff {low high : CheckLiteral} (left : low.WellQuoted)
    (right : high.WellQuoted) (plain : ¬ SkewedStrings low high) :
    literalCompare low high = some .gt ↔ Reversed low high := by
  constructor
  · intro compared
    unfold literalCompare at compared
    split at compared
    · cases compared
    · rename_i notBools
      cases cmp_value_kind compared with
      | numbers lower upper =>
        cases low <;> cases lower <;> cases high <;> cases upper
        · exact .integers (order_gt_iff.mp (Option.some.inj compared))
        · exact .rounded rfl rfl (.inr ⟨_, rfl⟩) (order_gt_iff.mp (Option.some.inj compared))
        · exact .rounded rfl rfl (.inl ⟨_, rfl⟩) (order_gt_iff.mp (Option.some.inj compared))
        · exact .rounded rfl rfl (.inl ⟨_, rfl⟩) (order_gt_iff.mp (Option.some.inj compared))
      | strings q r => exact .strings ((string_reversed_iff left right plain).mp compared)
      | bools a b => exact absurd rfl (notBools a b rfl)
  · intro reversed
    cases reversed with
    | integers above => exact congrArg some (order_gt_iff.mpr above)
    | strings above => exact (string_reversed_iff left right plain).mpr above
    | rounded lower upper float above =>
      obtain ⟨text, rfl⟩ | ⟨text, rfl⟩ := float
      · obtain rfl := Option.some.inj lower
        cases high <;> cases upper
        · exact congrArg some (order_gt_iff.mpr above)
        · exact congrArg some (order_gt_iff.mpr above)
      · obtain rfl := Option.some.inj upper
        cases low <;> cases lower
        · exact congrArg some (order_gt_iff.mpr above)
        · exact congrArg some (order_gt_iff.mpr above)

/-! All texts -/

/-- What is collected are the predicates that the comparison of their literals picks out, in
    their order; unless two strings are skewed, it picks out the reversed ones. -/
theorem reversed_between_exact (text : String) :
    collectReversedBetween (parseCheckExpr text) =
        (parseCheckExpr text).betweens.filter
          (fun bounds => literalCompare bounds.2.1 bounds.2.2 = some .gt) ∧
      ∀ column low high, ¬ SkewedStrings low high →
        ((column, low, high) ∈ collectReversedBetween (parseCheckExpr text) ↔
          (column, low, high) ∈ (parseCheckExpr text).betweens ∧ Reversed low high) := by
  refine ⟨collected_filter _, fun column low high plain => ?_⟩
  have quoted := parsed_quoted (rfl : parseCheckExpr text = parseCheckExpr text)
  rw [collected_filter, List.mem_filter]
  refine and_congr_right fun mem => ?_
  obtain ⟨lower, upper⟩ := between_literals _ _ mem
  rw [reportsBetween, decide_eq_true_iff]
  exact literal_compare_iff (quoted low lower) (quoted high upper) plain

/-- A range of booleans from true to false is not collected. -/
theorem reversed_booleans_left :
    (parseCheckExpr "flag BETWEEN TRUE AND FALSE").betweens = [("flag", .bool true, .bool false)] ∧
      (SqlValue.bool true).order (.bool false) = some .gt ∧
      collectReversedBetween (parseCheckExpr "flag BETWEEN TRUE AND FALSE") = [] := by
  have parsed : parseCheckExpr "flag BETWEEN TRUE AND FALSE" =
      .between "flag" (.bool true) (.bool false) false := by rfl
  rw [parsed]
  exact ⟨rfl, by decide, rfl⟩

end Vespertide
