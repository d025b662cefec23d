import Vespertide.CheckTruth

/-!
Where a reported contradiction is one: literals compared as they are written may
be in another order than the values they stand for.
-/
namespace Vespertide

/-! Order of quoted strings -/

/-- A longer text written before the shorter one it goes on: its next character
    comes before the quote that closes the other. -/
def GoesOnBelowQuote (short long : List Char) : Prop :=
  ∃ c rest, long = short ++ c :: rest ∧ c < '\''

theorem closing_cons (c : Char) (s : List Char) :
    ∃ tail, closing (c :: s) = c :: tail ∧ (c ≠ '\'' → tail = closing s) := by
  by_cases quote : c = '\''
  · subst quote
    exact ⟨_, closing_quote s, fun other => absurd rfl other⟩
  · exact ⟨_, closing_other quote s, fun _ => rfl⟩

theorem closing_order (a b : List Char) (written : closing b < closing a) :
    b < a ∨ GoesOnBelowQuote a b := by
  induction a generalizing b with
  | nil =>
    cases b with
    | nil => exact absurd written (lt_irrefl _)
    | cons c b =>
      by_cases quote : c = '\''
      · subst quote
        rw [closing_quote, closing_nil, List.cons_lt_cons_iff] at written
        simp at written
      · rw [closing_other quote, closing_nil, List.cons_lt_cons_iff] at written
        obtain below | same := written
        · exact .inr ⟨c, b, rfl, below⟩
        · exact absurd same.1 quote
  | cons d a ih =>
    cases b with
    | nil => exact .inl (List.nil_lt_cons d a)
    | cons c b =>
      by_cases same : c = d
      · subst same
        have inner : closing b < closing a := by
          by_cases quote : c = '\''
          · subst quote
            rw [closing_quote, closing_quote] at written
            simpa [List.cons_lt_cons_iff] using written
          · rw [closing_other quote, closing_other quote] at written
            simpa [List.cons_lt_cons_iff] using written
        obtain below | ⟨e, rest, longer, low⟩ := ih b inner
        · exact .inl (List.cons_lt_cons_iff.2 (.inr ⟨rfl, below⟩))
        · exact .inr ⟨e, rest, by rw [longer]; rfl, low⟩
      · obtain ⟨tailB, shapeB, _⟩ := closing_cons c b
        obtain ⟨tailA, shapeA, _⟩ := closing_cons d a
        rw [shapeA, shapeB, List.cons_lt_cons_iff] at written
        obtain below | equal := written
        · exact .inl (List.cons_lt_cons_iff.2 (.inl below))
        · exact absurd equal.1 same

/-- A text that goes on below the quote is written first and comes later. -/
theorem goes_on_order {a b : List Char} (goesOn : GoesOnBelowQuote a b) :
    closing b < closing a ∧ a < b := by
  obtain ⟨c, rest, longer, low⟩ := goesOn
  subst longer
  induction a with
  | nil =>
    have other : c ≠ '\'' := ne_of_lt low
    rw [List.nil_append, closing_other other, closing_nil]
    exact ⟨List.cons_lt_cons_iff.2 (.inl low), List.nil_lt_cons c rest⟩
  | cons d a ih =>
    obtain ⟨written, later⟩ := ih
    refine ⟨?_, List.cons_lt_cons_iff.2 (.inr ⟨rfl, later⟩)⟩
    by_cases quote : d = '\''
    · subst quote
      rw [List.cons_append, closing_quote, closing_quote]
      simpa [List.cons_lt_cons_iff] using written
    · rw [List.cons_append, closing_other quote, closing_other quote]
      simpa [List.cons_lt_cons_iff] using written

/-- A string literal as the lexer reads it. -/
def CheckLiteral.WellQuoted (literal : CheckLiteral) : Prop :=
  ∀ quoted, literal = .string quoted → quoted.toList = Text.quote '\'' (stringContent quoted)

theorem quoted_content (content : List Char) :
    stringContent (String.ofList (Text.quote '\'' content)) = content := by
  unfold stringContent
  rw [String.toList_ofList]
  have read := @Text.unquote_quote '\'' content [] (by simp)
  rwa [List.append_nil] at read

/-! Order of literals -/

/-- Two literals of one kind, and how their values lie where one is written before
    the other. -/
theorem number_order {a b : CheckLiteral} {p q : ℚ} (left : a.number = some p)
    (right : b.number = some q) :
    ∃ order, a.cmpValue b = some order ∧ (order = .lt → p < q) ∧ (order = .gt → q < p) := by
  cases a <;> cases b <;> simp only [CheckLiteral.number, Option.some.injEq, reduceCtorEq] at left right
  · rename_i m n
    subst left right
    refine ⟨_, rfl, ?_, ?_⟩
    · simp [order_lt_iff]
    · simp [order_gt_iff]
  · subst left right
    refine ⟨_, rfl, ?_, ?_⟩
    · rw [order_lt_iff]
      exact Binary64.lt_of_round_lt
    · rw [order_gt_iff]
      exact Binary64.lt_of_round_lt
  · subst left right
    refine ⟨_, rfl, ?_, ?_⟩
    · rw [order_lt_iff]
      exact Binary64.lt_of_round_lt
    · rw [order_gt_iff]
      exact Binary64.lt_of_round_lt
  · subst left right
    refine ⟨_, rfl, ?_, ?_⟩
    · rw [order_lt_iff]
      exact Binary64.lt_of_round_lt
    · rw [order_gt_iff]
      exact Binary64.lt_of_round_lt

theorem string_order {q r : String} (left : (CheckLiteral.string q).WellQuoted)
    (right : (CheckLiteral.string r).WellQuoted) :
    (q.toList < r.toList ↔ closing (stringContent q) < closing (stringContent r)) ∧
      (q.toList = r.toList ↔ stringContent q = stringContent r) := by
  have first := left q rfl
  have second := right r rfl
  constructor
  · rw [first, second, quote_closing, quote_closing, List.cons_lt_cons_iff]
    simp
  · constructor
    · intro same
      unfold stringContent
      rw [same]
    · intro same
      rw [first, second, same]

inductive SameKind : CheckLiteral → CheckLiteral → Prop where
  | numbers {a b : CheckLiteral} {p q : ℚ} (left : a.number = some p) (right : b.number = some q) :
      SameKind a b
  | strings (q r : String) : SameKind (.string q) (.string r)
  | bools (a b : Bool) : SameKind (.bool a) (.bool b)

theorem cmp_value_kind {a b : CheckLiteral} {order : Ordering}
    (compared : a.cmpValue b = some order) : SameKind a b := by
  cases a <;> cases b <;> first
    | exact .numbers rfl rfl
    | exact .strings _ _
    | exact .bools _ _
    | cases compared

theorem number_value {a : CheckLiteral} {p : ℚ} (number : a.number = some p) :
    a.value = some (.number p) := by
  cases a <;> simp_all [CheckLiteral.number, CheckLiteral.value]

/-! Misread pairs -/

/-- Bounds with room between their values that are written as if there were none. -/
inductive MisreadBounds : CheckOp → CheckLiteral → CheckOp → CheckLiteral → Prop where
  | strings {lowerOp upperOp : CheckOp} {q r : String} {c : Char} {rest : List Char}
      (goesOn : stringContent r = stringContent q ++ c :: rest) (below : c < '\'')
      (room : lowerOp = .ge ∨ upperOp = .le ∨ rest ≠ [] ∨ c ≠ '\x00') :
      MisreadBounds lowerOp (.string q) upperOp (.string r)
  | numbers {lowerOp upperOp : CheckOp} {lower upper : CheckLiteral} {p q : ℚ}
      (low : lower.number = some p) (high : upper.number = some q) (apart : p < q)
      (merged : lower.cmpValue upper = some .eq) (strict : lowerOp = .gt ∨ upperOp = .lt) :
      MisreadBounds lowerOp lower upperOp upper

/-- Two comparisons judged by how their literals are written, against their values. -/
inductive Misread (opA : CheckOp) (a : CheckLiteral) (opB : CheckOp) (b : CheckLiteral) : Prop where
  | bounds {lowerOp upperOp : CheckOp} {lower upper : CheckLiteral}
      (pair : boundsOf opA a opB b = some (lowerOp, lower, upperOp, upper))
      (misread : MisreadBounds lowerOp lower upperOp upper)
  | equality {p q : ℚ} (ops : opA = .eq ∧ opB = .ne ∨ opA = .ne ∧ opB = .eq)
      (left : a.number = some p) (right : b.number = some q) (apart : p ≠ q)
      (merged : a.cmpValue b = some .eq)

/-! Pairs of comparisons -/

theorem flagged_cases {displayFloat : String → String} {opA opB : CheckOp} {a b : CheckLiteral}
    {shown : String × String}
    (flagged : comparePairContradicts displayFloat opA a opB b = some shown) :
    ∃ order, a.cmpValue b = some order ∧
      ((opA = .eq ∧ opB = .eq ∧ order ≠ .eq) ∨
        ((opA = .eq ∧ opB = .ne ∨ opA = .ne ∧ opB = .eq) ∧ order = .eq) ∨
        ∃ lowerOp lower upperOp upper bounds,
          boundsOf opA a opB b = some (lowerOp, lower, upperOp, upper) ∧
          lower.cmpValue upper = some bounds ∧
          (bounds = .gt ∨ (lowerOp = .gt ∨ upperOp = .lt) ∧ bounds = .eq)) := by
  unfold comparePairContradicts at flagged
  dsimp only at flagged
  split at flagged
  · cases flagged
  · rename_i order compared
    refine ⟨order, compared, ?_⟩
    split at flagged
    · rename_i equalities
      exact .inl equalities
    · split at flagged
      · rename_i negation
        exact .inr (.inl negation)
      · split at flagged
        · cases flagged
        · rename_i lowerOp lower upperOp upper pair
          split at flagged
          · cases flagged
          · rename_i bounds ordered
            split at flagged
            · rename_i unsatisfiable
              exact .inr (.inr ⟨_, _, _, _, bounds, pair, ordered, unsatisfiable⟩)
            · cases flagged

theorem bounds_sides {opA opB lowerOp upperOp : CheckOp} {a b lower upper : CheckLiteral}
    (pair : boundsOf opA a opB b = some (lowerOp, lower, upperOp, upper)) {α : Type}
    {low high first second : α} (values : CheckLiteral → Option α) (left : values a = some first)
    (right : values b = some second) (below : values lower = some low)
    (above : values upper = some high) :
    boundsOf opA first opB second = some (lowerOp, low, upperOp, high) := by
  cases opA <;> cases opB <;> simp only [boundsOf, Option.some.injEq, Prod.mk.injEq,
    reduceCtorEq] at pair ⊢ <;>
    · obtain ⟨rfl, rfl, rfl, rfl⟩ := pair
      simp_all

theorem numbers_clash {displayFloat : String → String} {opA opB : CheckOp} {a b : CheckLiteral}
    {shown : String × String} {p q : ℚ} (left : a.number = some p) (right : b.number = some q)
    (flagged : comparePairContradicts displayFloat opA a opB b = some shown)
    (read : ¬ Misread opA a opB b) : Clash opA p opB q := by
  obtain ⟨order, compared, cases⟩ := flagged_cases flagged
  obtain ⟨found, same, less, greater⟩ := number_order left right
  rw [compared] at same
  cases same
  obtain ⟨first, second, apart⟩ | ⟨ops, equal⟩ |
    ⟨lowerOp, lower, upperOp, upper, bounds, pair, ordered, unsatisfiable⟩ := cases
  · refine .inl ⟨first, second, ?_⟩
    cases order with
    | lt => exact ne_of_lt (less rfl)
    | eq => exact absurd rfl apart
    | gt => exact ne_of_gt (greater rfl)
  · refine .inr (.inl ⟨ops, ?_⟩)
    by_contra apart
    subst equal
    exact read (.equality ops left right apart compared)
  · obtain ⟨_, _, sides⟩ := bounds_of_some pair
    obtain ⟨low, high, below, above⟩ : ∃ low high, lower.number = some low ∧
        upper.number = some high := by
      obtain ⟨_, rfl, _, rfl⟩ | ⟨_, rfl, _, rfl⟩ := sides
      · exact ⟨p, q, left, right⟩
      · exact ⟨q, p, right, left⟩
    obtain ⟨again, same, _, crossed⟩ := number_order below above
    rw [ordered] at same
    cases same
    refine .inr (.inr ⟨lowerOp, low, upperOp, high,
      bounds_sides pair CheckLiteral.number left right below above, ?_⟩)
    obtain gt | ⟨strict, equal⟩ := unsatisfiable
    · exact .inl (crossed gt)
    · refine .inr ⟨strict, ?_⟩
      by_contra apart
      subst equal
      exact read (.bounds pair (.numbers below above (lt_of_not_ge apart) ordered strict))

theorem least_char (c : Char) : '\x00' ≤ c := by
  show ('\x00').val ≤ c.val
  exact UInt32.zero_le

/-- Nothing lies between a text and the text followed by the first character. -/
theorem no_text_between {a x : List Char} (later : a < x) : a ++ ['\x00'] ≤ x := by
  induction a generalizing x with
  | nil =>
    cases x with
    | nil => exact absurd later (lt_irrefl _)
    | cons c x =>
      obtain below | same := lt_or_eq_of_le (least_char c)
      · exact (List.cons_lt_cons_iff.2 (.inl below)).le
      · subst same
        cases x with
        | nil => exact le_refl _
        | cons d x => exact (List.cons_lt_cons_iff.2 (.inr ⟨rfl, List.nil_lt_cons d x⟩)).le
  | cons d a ih =>
    cases x with
    | nil => exact absurd later (List.not_lt_nil _)
    | cons c x =>
      obtain below | ⟨same, inner⟩ := List.cons_lt_cons_iff.1 later
      · exact (List.cons_lt_cons_iff.2 (.inl below)).le
      · subst same
        exact List.cons_le_cons d (ih inner)

theorem strings_unmet {displayFloat : String → String} {opA opB : CheckOp} {q r : String}
    {shown : String × String} (left : (CheckLiteral.string q).WellQuoted)
    (right : (CheckLiteral.string r).WellQuoted)
    (flagged : comparePairContradicts displayFloat opA (.string q) opB (.string r) = some shown)
    (read : ¬ Misread opA (.string q) opB (.string r)) {x : List Char}
    (first : opA.holds (orderOf x (stringContent q)) = true)
    (second : opB.holds (orderOf x (stringContent r)) = true) : False := by
  obtain ⟨order, compared, cases⟩ := flagged_cases flagged
  have written : orderOf q.toList r.toList = order := Option.some.inj compared
  have same := (string_order left right).2
  obtain ⟨eqA, eqB, apart⟩ | ⟨ops, equal⟩ |
    ⟨lowerOp, lower, upperOp, upper, bounds, pair, ordered, unsatisfiable⟩ := cases
  · have differ : stringContent q ≠ stringContent r := by
      intro equal
      rw [← written, order_eq_iff.2 (same.2 equal)] at apart
      exact apart rfl
    exact Clash.unmet (.inl ⟨eqA, eqB, differ⟩) x first second
  · rw [equal, order_eq_iff] at written
    exact Clash.unmet (.inr (.inl ⟨ops, same.1 written⟩)) x first second
  · obtain ⟨lowerSide, upperSide, sides⟩ := bounds_of_some pair
    obtain ⟨l, u, rfl, rfl, wellL, wellU, above, below⟩ : ∃ l u, lower = .string l ∧
        upper = .string u ∧ (CheckLiteral.string l).WellQuoted ∧
        (CheckLiteral.string u).WellQuoted ∧ lowerOp.holds (orderOf x (stringContent l)) = true ∧
        upperOp.holds (orderOf x (stringContent u)) = true := by
      obtain ⟨rfl, rfl, rfl, rfl⟩ | ⟨rfl, rfl, rfl, rfl⟩ := sides
      · exact ⟨q, r, rfl, rfl, left, right, first, second⟩
      · exact ⟨r, q, rfl, rfl, right, left, second, first⟩
    have between := bounds_hold lowerSide upperSide above below
    have orders := string_order wellU wellL
    have writtenBounds : orderOf l.toList u.toList = bounds := Option.some.inj ordered
    obtain rfl | ⟨strict, rfl⟩ := unsatisfiable
    · rw [order_gt_iff] at writtenBounds
      obtain crossed | ⟨c, rest, longer, low⟩ := closing_order _ _ (orders.1.1 writtenBounds)
      · exact absurd between.1 (not_le_of_gt crossed)
      · have tight : ¬ (lowerOp = .ge ∨ upperOp = .le ∨ rest ≠ [] ∨ c ≠ '\x00') :=
          fun room => read (.bounds pair (.strings longer low room))
        simp only [not_or, not_not] at tight
        obtain ⟨notGe, notLe, rfl, rfl⟩ := tight
        have strictLow := (lower_holds lowerSide above).2 (lowerSide.resolve_right notGe)
        have strictHigh := (upper_holds upperSide below).2 (upperSide.resolve_right notLe)
        rw [longer] at strictHigh
        exact absurd strictHigh (not_lt_of_ge (no_text_between strictLow))
    · rw [order_eq_iff] at writtenBounds
      have equal := orders.2.1 writtenBounds.symm
      have apart := between.2 strict
      rw [equal] at apart
      exact lt_irrefl _ apart

def CheckLiteral.asBool : CheckLiteral → Option Bool
  | .bool b => some b
  | _ => none

theorem bools_clash {displayFloat : String → String} {opA opB : CheckOp} {a b : Bool}
    {shown : String × String}
    (flagged : comparePairContradicts displayFloat opA (.bool a) opB (.bool b) = some shown) :
    Clash opA a opB b := by
  obtain ⟨order, compared, cases⟩ := flagged_cases flagged
  have written : orderOf a b = order := Option.some.inj compared
  obtain ⟨eqA, eqB, apart⟩ | ⟨ops, equal⟩ |
    ⟨lowerOp, lower, upperOp, upper, bounds, pair, ordered, unsatisfiable⟩ := cases
  · refine .inl ⟨eqA, eqB, fun same => apart ?_⟩
    rw [← written, order_eq_iff.2 same]
  · rw [equal, order_eq_iff] at written
    exact .inr (.inl ⟨ops, written⟩)
  · obtain ⟨_, _, sides⟩ := bounds_of_some pair
    obtain ⟨l, u, rfl, rfl⟩ : ∃ l u, lower = .bool l ∧ upper = .bool u := by
      obtain ⟨_, rfl, _, rfl⟩ | ⟨_, rfl, _, rfl⟩ := sides
      · exact ⟨a, b, rfl, rfl⟩
      · exact ⟨b, a, rfl, rfl⟩
    have writtenBounds : orderOf l u = bounds := Option.some.inj ordered
    refine .inr (.inr ⟨lowerOp, l, upperOp, u, bounds_sides pair CheckLiteral.asBool rfl rfl rfl rfl, ?_⟩)
    obtain rfl | ⟨strict, rfl⟩ := unsatisfiable
    · exact .inl (order_gt_iff.1 writtenBounds)
    · exact .inr ⟨strict, (order_eq_iff.1 writtenBounds).ge⟩

theorem compared_number {op : CheckOp} {v : Option SqlValue} {p : ℚ}
    (holds : compareTruth op v (some (.number p)) = some true) :
    ∃ x, v = some (.number x) ∧ op.holds (orderOf x p) = true := by
  unfold compareTruth at holds
  cases v with
  | none => cases holds
  | some v => cases v with
    | number x => exact ⟨x, rfl, Option.some.inj holds⟩
    | text s => cases holds
    | bool b => cases holds

theorem compared_text {op : CheckOp} {v : Option SqlValue} {s : List Char}
    (holds : compareTruth op v (some (.text s)) = some true) :
    ∃ x, v = some (.text x) ∧ op.holds (orderOf x s) = true := by
  unfold compareTruth at holds
  cases v with
  | none => cases holds
  | some v => cases v with
    | number x => cases holds
    | text x => exact ⟨x, rfl, Option.some.inj holds⟩
    | bool b => cases holds

theorem compared_bool {op : CheckOp} {v : Option SqlValue} {b : Bool}
    (holds : compareTruth op v (some (.bool b)) = some true) :
    ∃ x, v = some (.bool x) ∧ op.holds (orderOf x b) = true := by
  unfold compareTruth at holds
  cases v with
  | none => cases holds
  | some v => cases v with
    | number x => cases holds
    | text x => cases holds
    | bool x => exact ⟨x, rfl, Option.some.inj holds⟩

theorem pair_unmet {displayFloat : String → String} {opA opB : CheckOp} {a b : CheckLiteral}
    {shown : String × String} (left : a.WellQuoted) (right : b.WellQuoted)
    (flagged : comparePairContradicts displayFloat opA a opB b = some shown)
    (read : ¬ Misread opA a opB b) {v : Option SqlValue}
    (first : compareTruth opA v a.value = some true)
    (second : compareTruth opB v b.value = some true) : False := by
  obtain ⟨order, compared, _⟩ := flagged_cases flagged
  cases cmp_value_kind compared with
  | numbers leftNumber rightNumber =>
    rw [number_value leftNumber] at first
    rw [number_value rightNumber] at second
    obtain ⟨x, rfl, meetsA⟩ := compared_number first
    obtain ⟨y, same, meetsB⟩ := compared_number second
    cases same
    exact (numbers_clash leftNumber rightNumber flagged read).unmet x meetsA meetsB
  | strings q r =>
    obtain ⟨x, rfl, meetsA⟩ := compared_text first
    obtain ⟨y, same, meetsB⟩ := compared_text second
    cases same
    exact strings_unmet left right flagged read meetsA meetsB
  | bools p q =>
    obtain ⟨x, rfl, meetsA⟩ := compared_bool first
    obtain ⟨y, same, meetsB⟩ := compared_bool second
    cases same
    exact (bools_clash flagged).unmet x meetsA meetsB

theorem room_between {lowerOp upperOp : CheckOp} (lower : lowerOp = .gt ∨ lowerOp = .ge)
    (upper : upperOp = .lt ∨ upperOp = .le) (a : List Char) (c : Char) (rest : List Char)
    (room : lowerOp = .ge ∨ upperOp = .le ∨ rest ≠ [] ∨ c ≠ '\x00') :
    ∃ x, lowerOp.holds (orderOf x a) = true ∧
      upperOp.holds (orderOf x (a ++ c :: rest)) = true := by
  have longer : ∀ d s, a < a ++ d :: s := by
    intro d s
    have extended : a ++ [] < a ++ d :: s := List.append_left_lt (List.nil_lt_cons d s)
    rwa [List.append_nil] at extended
  have strictly : ∀ {x}, a < x → x < a ++ c :: rest →
      lowerOp.holds (orderOf x a) = true ∧ upperOp.holds (orderOf x (a ++ c :: rest)) = true :=
    fun above below => ⟨lower_met lower above.le fun _ => above,
      upper_met upper below.le fun _ => below⟩
  have whole := longer c rest
  obtain rfl | rfl | more | greater := room
  · exact ⟨a, lower_met lower le_rfl (fun same => nomatch same),
      upper_met upper whole.le fun _ => whole⟩
  · exact ⟨a ++ c :: rest, lower_met lower whole.le (fun _ => whole),
      upper_met upper le_rfl (fun same => nomatch same)⟩
  · obtain ⟨d, tail, rfl⟩ := List.exists_cons_of_ne_nil more
    refine ⟨a ++ [c], strictly (longer c []) (List.append_left_lt ?_)⟩
    exact List.cons_lt_cons_iff.2 (.inr ⟨rfl, List.nil_lt_cons d tail⟩)
  · refine ⟨a ++ ['\x00'], strictly (longer '\x00' []) (List.append_left_lt ?_)⟩
    exact List.cons_lt_cons_iff.2 (.inl (lt_of_le_of_ne (least_char c) greater.symm))

theorem misread_bounds_met {lowerOp upperOp : CheckOp} {a b : CheckLiteral}
    (lower : lowerOp = .gt ∨ lowerOp = .ge) (upper : upperOp = .lt ∨ upperOp = .le)
    (misread : MisreadBounds lowerOp a upperOp b) :
    ∃ v, compareTruth lowerOp (some v) a.value = some true ∧
      compareTruth upperOp (some v) b.value = some true := by
  cases misread with
  | strings goesOn below room =>
    rename_i q r c rest
    obtain ⟨x, above, under⟩ := room_between lower upper (stringContent q) c rest room
    rw [← goesOn] at under
    exact ⟨.text x, congrArg some above, congrArg some under⟩
  | numbers low high apart merged strict =>
    rename_i p q
    rw [number_value low, number_value high]
    have above : p < (p + q) / 2 := by linarith
    have under : (p + q) / 2 < q := by linarith
    exact ⟨.number ((p + q) / 2), congrArg some (lower_met lower above.le fun _ => above),
      congrArg some (upper_met upper under.le fun _ => under)⟩

/-- Some value meets both comparisons of a misread pair. -/
theorem misread_met {opA opB : CheckOp} {a b : CheckLiteral} (misread : Misread opA a opB b) :
    ∃ v, compareTruth opA (some v) a.value = some true ∧
      compareTruth opB (some v) b.value = some true := by
  cases misread with
  | bounds pair misread =>
    obtain ⟨lower, upper, sides⟩ := bounds_of_some pair
    obtain ⟨v, above, below⟩ := misread_bounds_met lower upper misread
    obtain ⟨rfl, rfl, rfl, rfl⟩ | ⟨rfl, rfl, rfl, rfl⟩ := sides
    · exact ⟨v, above, below⟩
    · exact ⟨v, below, above⟩
  | equality ops left right apart merged =>
    rename_i p q
    rw [number_value left, number_value right]
    obtain ⟨rfl, rfl⟩ | ⟨rfl, rfl⟩ := ops
    · exact ⟨.number p, by simp [compareTruth, SqlValue.order, CheckOp.holds, order_eq_iff],
        by simp [compareTruth, SqlValue.order, CheckOp.holds, order_eq_iff, apart]⟩
    · exact ⟨.number q, by simp [compareTruth, SqlValue.order, CheckOp.holds, order_eq_iff, apart.symm],
        by simp [compareTruth, SqlValue.order, CheckOp.holds, order_eq_iff]⟩

/-! Expressions -/

theorem checked_pair_unmet {displayFloat : String → String} {column : String} {a b : CheckExpr}
    {found : Contradiction} (columnA : predicateColumn a = some column)
    (columnB : predicateColumn b = some column)
    (checked : checkPair displayFloat column a b = some found)
    (read : ∀ opA va opB vb, a = .compare column opA va → b = .compare column opB vb →
      va.WellQuoted ∧ vb.WellQuoted ∧ ¬ Misread opA va opB vb)
    {row : CheckRow} (first : a.truth row = some true) (second : b.truth row = some true) :
    False := by
  unfold checkPair at checked
  rw [Option.or_eq_some_iff, Option.or_eq_some_iff] at checked
  obtain compared | ⟨_, nulls | ⟨_, mixed⟩⟩ := checked
  · cases a <;> cases b <;> simp only [compareVsCompare, reduceCtorEq] at compared
    rename_i ownA opA va ownB opB vb
    cases columnA
    cases columnB
    obtain ⟨shown, flagged, _⟩ := Option.map_eq_some_iff.1 compared
    obtain ⟨wellA, wellB, right⟩ := read opA va opB vb rfl rfl
    exact pair_unmet wellA wellB flagged right first second
  · cases a <;> cases b <;> simp only [isNullVsIsNull, reduceCtorEq] at nulls
    cases columnA
    cases columnB
    simp only [CheckExpr.truth, Option.some.injEq] at first second
    split at nulls
    · rename_i differ
      apply differ
      cases hasNone : (row column).isNone <;> simp_all
    · cases nulls
  · have absent : ∀ {op value}, (row column).isNone = true →
        compareTruth op (row column) value = some true → False := by
      intro op value empty holds
      rw [Option.isNone_iff_eq_none] at empty
      rw [empty] at holds
      cases holds
    split at mixed
    · rename_i op value pair
      cases a <;> cases b <;> simp only [isNullVsOther, reduceCtorEq, Option.some.injEq,
        Prod.mk.injEq] at pair
      · obtain ⟨rfl, rfl, rfl⟩ := pair
        cases columnA
        cases columnB
        simp only [CheckExpr.truth, Option.some.injEq, Bool.bne_false] at first second
        exact absent second first
      · obtain ⟨rfl, rfl, rfl⟩ := pair
        cases columnA
        cases columnB
        simp only [CheckExpr.truth, Option.some.injEq, Bool.bne_false] at first second
        exact absent first second
    · cases mixed

/-- Where the search ends: an `AND` node with a contradictory pair among its
    flattened conjuncts. -/
inductive FlaggedAt (displayFloat : String → String) :
    CheckExpr → List CheckExpr → Contradiction → Prop where
  | here {parts : List CheckExpr} {found : Contradiction}
      (pair : contradictoryPair displayFloat (flattenAnd parts) = some found) :
      FlaggedAt displayFloat (.and parts) parts found
  | conjunct {parts node : List CheckExpr} {part : CheckExpr} {found : Contradiction}
      (mem : part ∈ flattenAnd parts) (inner : FlaggedAt displayFloat part node found) :
      FlaggedAt displayFloat (.and parts) node found
  | branch {parts node : List CheckExpr} {part : CheckExpr} {found : Contradiction}
      (mem : part ∈ parts) (inner : FlaggedAt displayFloat part node found) :
      FlaggedAt displayFloat (.or parts) node found

theorem FlaggedAt.pair {displayFloat : String → String} {expr : CheckExpr}
    {node : List CheckExpr} {found : Contradiction} (flagged : FlaggedAt displayFloat expr node found) :
    contradictoryPair displayFloat (flattenAnd node) = some found := by
  induction flagged with
  | here pair => exact pair
  | conjunct mem inner ih => exact ih
  | branch mem inner ih => exact ih

mutual

theorem flagged_of_found {displayFloat : String → String} (expr : CheckExpr)
    {found : Contradiction} (search : findContradiction displayFloat expr = some found) :
    ∃ node, FlaggedAt displayFloat expr node found := by
  match expr with
  | .and parts =>
    rw [findContradiction, Option.or_eq_some_iff] at search
    obtain pair | ⟨_, inner⟩ := search
    · exact ⟨parts, .here pair⟩
    · obtain ⟨part, mem, node, flagged⟩ := flagged_in_flat parts inner
      exact ⟨node, .conjunct mem flagged⟩
  | .or parts =>
    rw [findContradiction] at search
    obtain ⟨part, mem, node, flagged⟩ := flagged_in_branches parts search
    exact ⟨node, .branch mem flagged⟩
  | .compare .. | .in .. | .between .. | .isNull .. | .not _ | .unparseable =>
    simp only [findContradiction, reduceCtorEq] at search

theorem flagged_in_flat {displayFloat : String → String} (parts : List CheckExpr)
    {found : Contradiction} (search : findInFlat displayFloat parts = some found) :
    ∃ part ∈ flattenAnd parts, ∃ node, FlaggedAt displayFloat part node found := by
  match parts with
  | [] => simp only [findInFlat, reduceCtorEq] at search
  | first :: rest =>
    rw [findInFlat, Option.or_eq_some_iff] at search
    rw [flattenAnd]
    obtain here | ⟨_, later⟩ := search
    · obtain ⟨part, mem, flagged⟩ := flagged_in_part first here
      exact ⟨part, List.mem_append_left _ mem, flagged⟩
    · obtain ⟨part, mem, flagged⟩ := flagged_in_flat rest later
      exact ⟨part, List.mem_append_right _ mem, flagged⟩

theorem flagged_in_part {displayFloat : String → String} (whole : CheckExpr)
    {found : Contradiction} (search : findInPart displayFloat whole = some found) :
    ∃ part ∈ flattenPart whole, ∃ node, FlaggedAt displayFloat part node found := by
  match whole with
  | .and inner =>
    rw [findInPart] at search
    rw [flattenPart]
    exact flagged_in_flat inner search
  | .or parts =>
    rw [findInPart] at search
    obtain ⟨part, mem, node, flagged⟩ := flagged_in_branches parts search
    exact ⟨.or parts, by simp [flattenPart], node, .branch mem flagged⟩
  | .compare .. | .in .. | .between .. | .isNull .. | .not _ | .unparseable =>
    simp only [findInPart, reduceCtorEq] at search

theorem flagged_in_branches {displayFloat : String → String} (parts : List CheckExpr)
    {found : Contradiction} (search : findInBranches displayFloat parts = some found) :
    ∃ part ∈ parts, ∃ node, FlaggedAt displayFloat part node found := by
  match parts with
  | [] => simp only [findInBranches, reduceCtorEq] at search
  | first :: rest =>
    rw [findInBranches, Option.or_eq_some_iff] at search
    obtain here | ⟨_, later⟩ := search
    · obtain ⟨node, flagged⟩ := flagged_of_found first here
      exact ⟨first, List.mem_cons_self, node, flagged⟩
    · obtain ⟨part, mem, flagged⟩ := flagged_in_branches rest later
      exact ⟨part, List.mem_cons_of_mem _ mem, flagged⟩

end

/-! Literals of a parsed text -/

mutual

def CheckExpr.literals : CheckExpr → List CheckLiteral
  | .compare _ _ value => [value]
  | .in _ values _ => values
  | .between _ low high _ => [low, high]
  | .isNull _ _ => []
  | .and parts => literalsOf parts
  | .or parts => literalsOf parts
  | .not inner => inner.literals
  | .unparseable => []
termination_by structural expr => expr

def literalsOf : List CheckExpr → List CheckLiteral
  | [] => []
  | part :: rest => part.literals ++ literalsOf rest
termination_by structural parts => parts

end

theorem mem_literals_of {parts : List CheckExpr} {value : CheckLiteral} :
    value ∈ literalsOf parts ↔ ∃ part ∈ parts, value ∈ part.literals := by
  induction parts with
  | nil => simp [literalsOf]
  | cons part rest ih => simp [literalsOf, ih]

mutual

theorem flattened_literals (parts : List CheckExpr) :
    ∀ part ∈ flattenAnd parts, ∀ value ∈ part.literals, value ∈ literalsOf parts := by
  match parts with
  | [] =>
    intro part mem
    simp [flattenAnd] at mem
  | first :: rest =>
    intro part mem value held
    rw [flattenAnd, List.mem_append] at mem
    rw [literalsOf, List.mem_append]
    obtain here | later := mem
    · exact .inl (flattened_part_literals first part here value held)
    · exact .inr (flattened_literals rest part later value held)

theorem flattened_part_literals (whole : CheckExpr) :
    ∀ part ∈ flattenPart whole, ∀ value ∈ part.literals, value ∈ whole.literals := by
  match whole with
  | .and inner =>
    intro part mem value held
    rw [flattenPart] at mem
    rw [CheckExpr.literals]
    exact flattened_literals inner part mem value held
  | .compare .. | .in .. | .between .. | .isNull .. | .or _ | .not _ | .unparseable =>
    intro part mem value held
    simp only [flattenPart, List.mem_singleton] at mem
    rw [← mem]
    exact held

end

theorem flagged_literals {displayFloat : String → String} {expr : CheckExpr}
    {node : List CheckExpr} {found : Contradiction} (flagged : FlaggedAt displayFloat expr node found) :
    ∀ value ∈ literalsOf node, value ∈ expr.literals := by
  induction flagged with
  | here pair =>
    intro value mem
    rw [CheckExpr.literals]
    exact mem
  | conjunct mem inner ih =>
    intro value held
    rw [CheckExpr.literals]
    exact flattened_literals _ _ mem value (ih value held)
  | branch mem inner ih =>
    intro value held
    rw [CheckExpr.literals, mem_literals_of]
    exact ⟨_, mem, ih value held⟩

section Words
variable {good : CheckLiteral → Prop}

def WordLiterals (words : Reading.Language CheckToken CheckExpr) (good : CheckLiteral → Prop) :
    Prop :=
  ∀ {tokens expr}, words tokens expr →
    (∀ token ∈ tokens, ∀ value, LiteralToken token value → good value) →
      ∀ value ∈ expr.literals, good value

theorem separated_literals {sep : CheckToken} {item : Reading.Language CheckToken CheckExpr}
    (items : WordLiterals item good) {tokens : List CheckToken} {parts : List CheckExpr}
    (words : Reading.Separated sep item tokens parts)
    (tokensGood : ∀ token ∈ tokens, ∀ value, LiteralToken token value → good value) :
    ∀ value ∈ literalsOf parts, good value := by
  induction words with
  | nil => simp [literalsOf]
  | cons first others ih =>
    intro value mem
    rw [literalsOf, List.mem_append] at mem
    obtain here | later := mem
    · exact items first (fun token held => tokensGood token
        (List.mem_cons_of_mem _ (List.mem_append_left _ held))) value here
    · exact ih (fun token held => tokensGood token
        (List.mem_cons_of_mem _ (List.mem_append_right _ held))) value later

theorem joined_literals {kw : CheckKeyword} {join : List CheckExpr → CheckExpr}
    {item : Reading.Language CheckToken CheckExpr} (items : WordLiterals item good)
    (joined : ∀ parts, (join parts).literals = literalsOf parts) :
    WordLiterals (Joined kw join item) good := by
  intro tokens expr word tokensGood value mem
  cases word with
  | single word => exact items word tokensGood value mem
  | several word others some =>
    rw [joined, literalsOf, List.mem_append] at mem
    obtain here | later := mem
    · exact items word (fun token held => tokensGood token (List.mem_append_left _ held)) value here
    · exact separated_literals items others
        (fun token held => tokensGood token (List.mem_append_right _ held)) value later

theorem or_literals {atom : Reading.Language CheckToken CheckExpr} (atoms : WordLiterals atom good) :
    WordLiterals (OrExpr atom) good := by
  refine joined_literals (joined_literals ?_ fun parts => by rw [CheckExpr.literals])
    fun parts => by rw [CheckExpr.literals]
  intro tokens expr word tokensGood value mem
  cases word with
  | negated word =>
    rw [CheckExpr.literals] at mem
    exact atoms word (fun token held => tokensGood token (List.mem_cons_of_mem _ held)) value mem
  | plain word => exact atoms word tokensGood value mem

theorem list_literals {sep : CheckToken} {tokens : List CheckToken} {values : List CheckLiteral}
    (words : Reading.Separated sep LiteralWord tokens values)
    (tokensGood : ∀ token ∈ tokens, ∀ value, LiteralToken token value → good value) :
    ∀ value ∈ values, good value := by
  induction words with
  | nil => simp
  | cons first others ih =>
    obtain ⟨token, rfl, literal⟩ := first
    intro value mem
    cases mem with
    | head => exact tokensGood token (by simp) _ literal
    | tail _ mem => exact ih (fun token held => tokensGood token
        (List.mem_cons_of_mem _ (List.mem_append_right _ held))) value mem

theorem predicate_literals {fewest : Nat} : WordLiterals (Predicate fewest) good := by
  intro tokens expr word tokensGood value mem
  cases word with
  | comparison column op literal =>
    rw [CheckExpr.literals, List.mem_singleton] at mem
    rw [mem]
    exact tokensGood _ (by simp) _ literal
  | inList column negated first others enough =>
    rw [CheckExpr.literals] at mem
    cases mem with
    | head => exact tokensGood _ (by simp) _ first
    | tail _ mem => exact list_literals others (fun token held => tokensGood token (by simp [held])) value mem
  | between column negated lowest highest =>
    simp only [CheckExpr.literals, List.mem_cons, List.not_mem_nil, or_false] at mem
    obtain rfl | rfl := mem
    · exact tokensGood _ (by simp) _ lowest
    · exact tokensGood _ (by simp) _ highest
  | isNull column negated =>
    rw [CheckExpr.literals] at mem
    cases mem

theorem atom_literals {fewest : Nat} (nesting : Nat) : WordLiterals (Atom fewest nesting) good := by
  induction nesting with
  | zero => exact predicate_literals
  | succ nesting ih =>
    intro tokens expr word tokensGood value mem
    cases word with
    | inl word => exact predicate_literals word tokensGood value mem
    | inr group =>
      obtain ⟨inner, rfl, word⟩ := group
      exact or_literals ih word (fun token held => tokensGood token (by simp [held])) value mem

end Words

theorem lexeme_quoted {before : Option CheckToken} {token : CheckToken} {text rest : List Char}
    (lexeme : Lexeme before token text rest) {quoted : String}
    (string : token = .quotedString quoted) :
    quoted.toList = Text.quote '\'' (stringContent quoted) := by
  have number : ∀ n : NumberParts, n.token ≠ .quotedString quoted := by
    intro n same
    unfold NumberParts.token at same
    split at same <;> cases same
  cases lexeme with
  | string content closed =>
    cases string
    rw [quoted_content, String.toList_ofList]
  | unsigned n => exact absurd string (number n)
  | signed n => exact absurd string (number n)
  | _ => cases string

theorem lexed_quoted {before : Option CheckToken} {text : List Char} {tokens : List CheckToken}
    (lexes : Lexes before text tokens) :
    ∀ token ∈ tokens, ∀ value, LiteralToken token value → value.WellQuoted := by
  induction lexes with
  | done => simp
  | blank space others ih => exact ih
  | token lexeme others ih =>
    intro token mem value literal
    cases mem with
    | tail _ mem => exact ih token mem value literal
    | head =>
      intro quoted same
      subst same
      cases literal
      exact lexeme_quoted lexeme rfl

theorem parsed_quoted {text : String} {tree : CheckExpr} (parsed : parseCheckExpr text = tree) :
    ∀ value ∈ tree.literals, value.WellQuoted := by
  by_cases recognised : tree = .unparseable
  · rw [recognised, CheckExpr.literals]
    simp
  · obtain ⟨tokens, lexes, word⟩ := (parsed_iff text tree).1 ⟨parsed, recognised⟩
    exact or_literals (atom_literals _) word (lexed_quoted lexes)

/-! Soundness -/

/-- Some pair of one column that the check reports among the conjuncts is not misread. -/
def RightlyFlagged (displayFloat : String → String) (node : List CheckExpr) : Prop :=
  ∃ column, ∃ a ∈ flattenAnd node, ∃ b ∈ flattenAnd node,
    predicateColumn a = some column ∧ predicateColumn b = some column ∧
    (checkPair displayFloat column a b).isSome ∧
    ∀ opA va opB vb, a = .compare column opA va → b = .compare column opB vb →
      ¬ Misread opA va opB vb

theorem rightly_flagged_unmet {displayFloat : String → String} {node : List CheckExpr}
    (quoted : ∀ value ∈ literalsOf node, value.WellQuoted)
    (right : RightlyFlagged displayFloat node) (row : CheckRow) :
    (CheckExpr.and node).truth row ≠ some true := by
  intro holds
  obtain ⟨column, a, memA, b, memB, columnA, columnB, checked, read⟩ := right
  obtain ⟨found, checked⟩ := Option.isSome_iff_exists.1 checked
  have flat := flattened_true row node ((and_truth_iff row node).1 holds)
  refine checked_pair_unmet columnA columnB checked ?_ (flat a memA) (flat b memB)
  intro opA va opB vb sameA sameB
  subst sameA sameB
  cases columnA
  cases columnB
  refine ⟨quoted va ?_, quoted vb ?_, read opA va opB vb rfl rfl⟩
  · exact flattened_literals node _ memA va (by simp [CheckExpr.literals])
  · exact flattened_literals node _ memB vb (by simp [CheckExpr.literals])

theorem two_comparisons_search (displayFloat : String → String) (column : String) (opA opB : CheckOp)
    (a b : CheckLiteral) :
    findContradiction displayFloat (.and [.compare column opA a, .compare column opB b]) =
      checkPair displayFloat column (.compare column opA a) (.compare column opB b) := by
  simp [findContradiction, findInFlat, findInPart, flattenAnd, flattenPart, contradictoryPair,
    groupPredicatesByColumn, predicateColumn, addToGroup, pairsOf]

/-- A reported node is never true when some reported pair of it is not misread; a node of
    two comparisons only then. -/
theorem reported_never_true_when (displayFloat : String → String) (text : String)
    (found : Contradiction)
    (reported : findContradiction displayFloat (parseCheckExpr text) = some found) :
    (∃ node, FlaggedAt displayFloat (parseCheckExpr text) node found) ∧
    (∀ node, FlaggedAt displayFloat (parseCheckExpr text) node found →
      RightlyFlagged displayFloat node →
        ∀ row, (CheckExpr.and node).truth row ≠ some true) ∧
    ∀ column opA a opB b,
      parseCheckExpr text = .and [.compare column opA a, .compare column opB b] →
        ((∀ row, (parseCheckExpr text).truth row ≠ some true) ↔ ¬ Misread opA a opB b) := by
  have quoted := parsed_quoted (rfl : parseCheckExpr text = parseCheckExpr text)
  refine ⟨flagged_of_found _ reported, ?_, ?_⟩
  · intro node flagged right row
    exact rightly_flagged_unmet (fun value mem => quoted value (flagged_literals flagged value mem))
      right row
  · intro column opA a opB b parsed
    rw [parsed] at reported quoted ⊢
    rw [two_comparisons_search] at reported
    constructor
    · intro never misread
      obtain ⟨v, first, second⟩ := misread_met misread
      apply never fun _ => some v
      rw [and_truth_iff]
      simp only [List.forall_mem_cons, List.not_mem_nil, IsEmpty.forall_iff, implies_true, and_true]
      exact ⟨first, second⟩
    · intro read row holds
      have parts := (and_truth_iff row _).1 holds
      refine checked_pair_unmet rfl rfl reported ?_ (parts _ List.mem_cons_self)
        (parts _ (List.mem_cons_of_mem _ List.mem_cons_self))
      intro opA' va opB' vb sameA sameB
      cases sameA
      cases sameB
      exact ⟨quoted _ (by simp [CheckExpr.literals, literalsOf]),
        quoted _ (by simp [CheckExpr.literals, literalsOf]), read⟩

theorem range_never_true :
    findContradiction id (parseCheckExpr "a > 5 AND a < 5") = some ⟨"a", "a > 5", "a < 5"⟩ ∧
      ∀ row, (parseCheckExpr "a > 5 AND a < 5").truth row ≠ some true := by
  have parsed : parseCheckExpr "a > 5 AND a < 5" =
      .and [.compare "a" .gt (.integer 5), .compare "a" .lt (.integer 5)] := by rfl
  have reported : findContradiction id (parseCheckExpr "a > 5 AND a < 5") =
      some ⟨"a", "a > 5", "a < 5"⟩ := by
    rw [parsed]
    rfl
  refine ⟨reported, ?_⟩
  refine ((reported_never_true_when id _ _ reported).2.2 _ _ _ _ _ parsed).2 ?_
  intro misread
  cases misread with
  | bounds pair misread =>
    cases pair
    cases misread with
    | numbers low high apart merged strict =>
      cases low
      cases high
      exact lt_irrefl _ apart
  | equality ops => simp at ops

/-- `'a'` is written after `'a b'`, so the range between them is reported as empty. -/
theorem open_range_reported :
    findContradiction id (parseCheckExpr "s > 'a' AND s < 'a b'") =
        some ⟨"s", "s > 'a'", "s < 'a b'"⟩ ∧
      FlaggedAt id (parseCheckExpr "s > 'a' AND s < 'a b'")
        [.compare "s" .gt (.string "'a'"), .compare "s" .lt (.string "'a b'")]
        ⟨"s", "s > 'a'", "s < 'a b'"⟩ ∧
      (parseCheckExpr "s > 'a' AND s < 'a b'").truth
        (fun _ => some (.text ['a', ' '])) = some true := by
  have parsed : parseCheckExpr "s > 'a' AND s < 'a b'" =
      .and [.compare "s" .gt (.string "'a'"), .compare "s" .lt (.string "'a b'")] := by rfl
  rw [parsed]
  exact ⟨by decide +kernel, .here (by decide +kernel), by decide +kernel⟩

end Vespertide
