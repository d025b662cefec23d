import Vespertide.BetweenOrder
import Vespertide.Schema

/-!
Column defaults that a CHECK of the table is said to reject, against the truth of
the CHECK on a row that holds the default.
-/
namespace Vespertide

open ThreeValued

/-! Validation -/

/-- A float in range as a number; an infinity as the first power of two out of range. -/
def F64.number (f : F64) : Option ℚ :=
  if f.display = "NaN" then none
  else if f.display = "inf" then some (2 ^ 1024)
  else if f.display = "-inf" then some (-2 ^ 1024)
  else some (parseF64 f.display)

def f64Epsilon : ℚ := 1 / 2 ^ 52

/-- `(a - b).abs()`, without a value between two infinities of one sign. -/
def f64Gap (a b : ℚ) : Option ℚ :=
  if a = b ∧ 2 ^ 1024 ≤ |a| then none else some |Binary64.round (a - b)|

def i64ToF64 (n : Int) : ℚ := Binary64.round n

def applyOpI64 (op : CheckOp) (a b : Int) : Bool := op.holds (orderOf a b)

def applyOpF64 (op : CheckOp) (a b : ℚ) : Bool :=
  match op with
  | .eq => (f64Gap a b).any (· < f64Epsilon)
  | .ne => (f64Gap a b).any (f64Epsilon ≤ ·)
  | .lt => a < b
  | .le => a ≤ b
  | .gt => b < a
  | .ge => b ≤ a

def applyOpStr (op : CheckOp) (a b : String) : Bool := op.holds (orderOf a.toList b.toList)

/-- An order of booleans is not judged. -/
def applyOpBool (op : CheckOp) (a b : Bool) : Bool :=
  match op with
  | .eq => a = b
  | .ne => a ≠ b
  | _ => true

/-- A comparison with a literal of another type counts as satisfied. -/
def evaluateOp (op : CheckOp) : DefaultValue → CheckLiteral → Bool
  | .integer a, .integer b => applyOpI64 op a b
  | .float a, .float b => a.number.any (applyOpF64 op · (parseF64 b))
  | .integer a, .float b => applyOpF64 op (i64ToF64 a) (parseF64 b)
  | .float a, .integer b => a.number.any (applyOpF64 op · (i64ToF64 b))
  | .string a, .string b => applyOpStr op a b
  | .bool a, .bool b => applyOpBool op a b
  | _, _ => true

/-- A literal of another type is not equal. -/
def literalEquals : DefaultValue → CheckLiteral → Bool
  | .integer a, .integer b => a = b
  | .float a, .float b => a.number.any (applyOpF64 .eq · (parseF64 b))
  | .integer a, .float b => applyOpF64 .eq (i64ToF64 a) (parseF64 b)
  | .float a, .integer b => a.number.any (applyOpF64 .eq · (i64ToF64 b))
  | .string a, .string b => a = b
  | .bool a, .bool b => a = b
  | _, _ => false

def checkSatisfied (check : SimpleColumnCheck) (default : DefaultValue) : Bool :=
  match check with
  | .op op value => evaluateOp op default value
  | .in values => values.any (literalEquals default)

structure DefaultViolation where
  table : String
  column : String
  defaultValue : String
  checkName : String
  checkExpr : String
  deriving DecidableEq, Repr

def violationOf (t : TableDef) (column : ColumnDef) (default : DefaultValue) :
    TableConstraint → Option DefaultViolation
  | .check name expr _ =>
      match extractSimpleColumnCheck (parseCheckExpr expr) column.name with
      | none => none
      | some simple =>
          if checkSatisfied simple default then none
          else some ⟨t.name, column.name, default.toSql, name, expr⟩
  | _ => none

def validateDefaultVsCheck (t : TableDef) : Except DefaultViolation Unit :=
  match t.columns.findSome? fun column =>
    column.default.bind fun default => t.constraints.findSome? (violationOf t column default) with
  | some violation => .error violation
  | none => .ok ()

/-! Literals -/

/-- The default as one literal: an `i64`, a boolean, or a text that is nothing but the
    literal. -/
def DefaultValue.literal : DefaultValue → Option CheckLiteral
  | .integer n =>
      if -9223372036854775808 ≤ n ∧ n ≤ 9223372036854775807 then some (.integer n) else none
  | .bool b => some (.bool b)
  | .float _ => none
  | .string s =>
      match nextToken [] (DefaultValue.string s).toSql.toList with
      | some (token, _, []) => (tryTakeLiteral [token]).map (·.1)
      | _ => none

/-- A text that is not itself a string literal: a number, a boolean, or the empty text. -/
def Bare (default : DefaultValue) (literal : CheckLiteral) : Prop :=
  ∃ s, default = .string s ∧ literal ≠ .string s

/-- A default that is said to violate a check which is not false of it. -/
inductive MisreadDefault (default : DefaultValue) (literal : CheckLiteral) :
    SimpleColumnCheck → Prop where
  /-- The list holds NULL or a value of another kind. -/
  | unknown_member {values : List CheckLiteral} {value : CheckLiteral} (member : value ∈ values)
      (unknown : compareTruth .eq literal.value value.value = none) :
      MisreadDefault default literal (.in values)
  | bare_member {values : List CheckLiteral} {value : CheckLiteral} (bare : Bare default literal)
      (member : value ∈ values) (same : compareTruth .eq literal.value value.value = some true) :
      MisreadDefault default literal (.in values)
  | unknown_value {op : CheckOp} {value : CheckLiteral} (bare : Bare default literal)
      (unknown : compareTruth .eq literal.value value.value = none) :
      MisreadDefault default literal (.op op value)
  | bare_value {op : CheckOp} {value : CheckLiteral} (bare : Bare default literal)
      (order : op ≠ .gt) (same : compareTruth .eq literal.value value.value = some true) :
      MisreadDefault default literal (.op op value)
  | below {op : CheckOp} {s q : String} (order : op = .lt ∨ op = .le)
      (quoted : default = .string s ∧ literal = .string s)
      (goesOn : GoesOnBelowQuote (stringContent s) (stringContent q)) :
      MisreadDefault default literal (.op op (.string q))
  | above {op : CheckOp} {s q : String} (order : op = .gt ∨ op = .ge)
      (quoted : default = .string s ∧ literal = .string s)
      (goesOn : GoesOnBelowQuote (stringContent q) (stringContent s)) :
      MisreadDefault default literal (.op op (.string q))
  | near {n : Int} {text : String} (integer : default = .integer n)
      (apart : (n : ℚ) ≠ decimalValue text.toList)
      (close : ∃ gap, f64Gap (i64ToF64 n) (parseF64 text) = some gap ∧ gap < f64Epsilon) :
      MisreadDefault default literal (.op .ne (.float text))
  | merged {op : CheckOp} {n : Int} {text : String} (integer : default = .integer n)
      (order : op = .lt ∧ (n : ℚ) < decimalValue text.toList ∨
        op = .gt ∧ decimalValue text.toList < (n : ℚ))
      (same : i64ToF64 n = parseF64 text) : MisreadDefault default literal (.op op (.float text))

/-! One literal -/

inductive Spelling : DefaultValue → CheckLiteral → Prop where
  | integer {n : Int} (word : |(n : ℚ)| ≤ 2 ^ 63) : Spelling (.integer n) (.integer n)
  | bool (b : Bool) : Spelling (.bool b) (.bool b)
  | quoted {s : String} (well : (CheckLiteral.string s).WellQuoted) :
      Spelling (.string s) (.string s)
  | empty : Spelling (.string "") (.string "''")
  | bare {s : String} {literal : CheckLiteral} (other : ∀ q, literal ≠ .string q) :
      Spelling (.string s) literal

theorem lexeme_string {before : Option CheckToken} {q : String} {text rest : List Char}
    (lexeme : Lexeme before (.quotedString q) text rest) : q.toList = text := by
  have number : ∀ n : NumberParts, n.token ≠ .quotedString q := by
    intro n same
    unfold NumberParts.token at same
    split at same <;> cases same
  generalize found : CheckToken.quotedString q = token at lexeme
  cases lexeme with
  | string content closed =>
    obtain rfl := CheckToken.quotedString.inj found
    exact String.toList_ofList
  | unsigned n => exact absurd found.symm (number n)
  | signed n => exact absurd found.symm (number n)
  | _ => cases found

theorem spelling_of_literal {default : DefaultValue} {literal : CheckLiteral}
    (spelled : default.literal = some literal) : Spelling default literal := by
  cases default with
  | integer n =>
    obtain ⟨⟨least, most⟩, same⟩ := Option.ite_none_right_eq_some.mp spelled
    obtain rfl := Option.some.inj same
    have least' : (-9223372036854775808 : ℚ) ≤ n := by exact_mod_cast least
    have most' : (n : ℚ) ≤ 9223372036854775807 := by exact_mod_cast most
    exact .integer (abs_le.mpr ⟨by linarith, by linarith⟩)
  | bool b =>
    obtain rfl := Option.some.inj spelled
    exact .bool b
  | float f => cases spelled
  | string s =>
    rw [DefaultValue.literal] at spelled
    split at spelled
    · rename_i token text read
      obtain ⟨taken, lexeme⟩ := next_token_sound read (by simp)
      by_cases string : ∃ q, literal = .string q
      · obtain ⟨q, rfl⟩ := string
        have quoted : token = .quotedString q := by
          cases token with
          | keyword kw => cases kw <;> cases spelled
          | quotedString q' => cases spelled; rfl
          | _ => cases spelled
        subst quoted
        have same : q = (DefaultValue.string s).toSql := by
          rw [← String.toList_inj, lexeme_string lexeme, taken, List.append_nil]
        by_cases blank : s = ""
        · subst blank
          rw [same]
          exact .empty
        · have written : q = s := by rw [same, DefaultValue.toSql, if_neg blank]
          subst written
          refine .quoted fun r string => ?_
          obtain rfl := CheckLiteral.string.inj string
          exact lexeme_quoted lexeme rfl
      · exact .bare fun q same => string ⟨q, same⟩
    · cases spelled

/-! Equal literals -/

theorem f64_gap_self {a : ℚ} (finite : |a| < 2 ^ 1024) : f64Gap a a = some 0 := by
  have zero : Binary64.round 0 = 0 := by
    unfold Binary64.round
    rw [Binary64.nearest_zero, min_eq_left (by positivity),
      max_eq_right (neg_nonpos.mpr (by positivity))]
  rw [f64Gap, if_neg (fun infinite => absurd finite (not_lt.mpr infinite.2)), sub_self, zero,
    abs_zero]

theorem f64_epsilon_pos : 0 < f64Epsilon := by
  unfold f64Epsilon
  positivity

theorem equal_found {default : DefaultValue} {literal value : CheckLiteral}
    (spelled : Spelling default literal) (quoted : value.WellQuoted)
    (same : compareTruth .eq literal.value value.value = some true) :
    literalEquals default value = true ∨ Bare default literal := by
  cases spelled with
  | @integer n word =>
    left
    cases value with
    | integer m =>
      have equal := eq_holds (Option.some.inj same)
      exact decide_eq_true (by exact_mod_cast equal)
    | float text =>
      have equal : (n : ℚ) = decimalValue text.toList := eq_holds (Option.some.inj same)
      have finite : |i64ToF64 n| < 2 ^ 1024 := Binary64.abs_round_lt word
      rw [literalEquals, applyOpF64, parseF64, ← equal]
      change (f64Gap (i64ToF64 n) (i64ToF64 n)).any _ = true
      rw [f64_gap_self finite]
      exact decide_eq_true f64_epsilon_pos
    | _ => cases same
  | bool b =>
    left
    cases value with
    | bool c => exact decide_eq_true (eq_holds (Option.some.inj same))
    | _ => cases same
  | @quoted s well =>
    left
    cases value with
    | string q =>
      have equal : stringContent s = stringContent q := eq_holds (Option.some.inj same)
      exact decide_eq_true (String.toList_inj.mp ((string_order well quoted).2.mpr equal))
    | _ => cases same
  | empty => exact .inr ⟨"", rfl, by simp⟩
  | @bare s literal other => exact .inr ⟨s, rfl, other s⟩

/-! Lists -/

theorem list_false_iff {default : DefaultValue} {literal : CheckLiteral}
    {values : List CheckLiteral} (spelled : Spelling default literal)
    (quoted : ∀ value ∈ values, value.WellQuoted)
    (reported : checkSatisfied (.in values) default = false) :
    any (values.map fun value => compareTruth .eq literal.value value.value) = some false ↔
      ¬ MisreadDefault default literal (.in values) := by
  rw [any_false_iff, List.forall_mem_map]
  constructor
  · intro each misread
    cases misread with
    | unknown_member member unknown =>
      have differs := each _ member
      rw [unknown] at differs
      cases differs
    | bare_member bare member same =>
      have differs := each _ member
      rw [same] at differs
      cases differs
  · intro read value member
    cases judged : compareTruth .eq literal.value value.value with
    | none => exact absurd (.unknown_member member judged) read
    | some equal =>
      cases equal with
      | false => rfl
      | true =>
        obtain found | bare := equal_found spelled (quoted value member) judged
        · rw [checkSatisfied, List.any_eq_false] at reported
          exact absurd found (reported value member)
        · exact absurd (.bare_member bare member judged) read

/-! Comparisons -/

theorem order_cast (m n : Int) : orderOf (m : ℚ) n = orderOf m n :=
  (Int.cast_strictMono (R := ℚ)).cmp_map_eq m n

theorem holds_false_iff {α : Type} [LinearOrder α] {op : CheckOp} {a b : α} :
    op.holds (orderOf a b) = false ↔
      match op with
      | .eq => a ≠ b
      | .ne => a = b
      | .lt => b ≤ a
      | .le => b < a
      | .gt => a ≤ b
      | .ge => a < b := by
  cases op <;> simp [CheckOp.holds, order_eq_iff, order_lt_iff, order_gt_iff]

theorem misread_float_iff {op : CheckOp} {n : Int} {text : String} :
    MisreadDefault (.integer n) (.integer n) (.op op (.float text)) ↔
      (op = .ne ∧ (n : ℚ) ≠ decimalValue text.toList ∧
        ∃ gap, f64Gap (i64ToF64 n) (parseF64 text) = some gap ∧ gap < f64Epsilon) ∨
      ((op = .lt ∧ (n : ℚ) < decimalValue text.toList ∨
        op = .gt ∧ decimalValue text.toList < (n : ℚ)) ∧ i64ToF64 n = parseF64 text) := by
  constructor
  · intro misread
    cases misread with
    | unknown_value bare unknown =>
      obtain ⟨s, same, -⟩ := bare
      cases same
    | bare_value bare order same =>
      obtain ⟨s, same, -⟩ := bare
      cases same
    | near integer apart close =>
      cases integer
      exact .inl ⟨rfl, apart, close⟩
    | merged integer order same =>
      cases integer
      exact .inr ⟨order, same⟩
  · rintro (⟨rfl, apart, close⟩ | ⟨order, same⟩)
    · exact .near rfl apart close
    · exact .merged rfl order same

theorem integer_float_false_iff {op : CheckOp} {n : Int} {text : String}
    (word : |(n : ℚ)| ≤ 2 ^ 63)
    (reported : applyOpF64 op (i64ToF64 n) (parseF64 text) = false) :
    op.holds (orderOf (n : ℚ) (decimalValue text.toList)) = false ↔
      ¬ MisreadDefault (.integer n) (.integer n) (.op op (.float text)) := by
  have finite : |i64ToF64 n| < 2 ^ 1024 := Binary64.abs_round_lt word
  have exists_gap : ∃ gap, f64Gap (i64ToF64 n) (parseF64 text) = some gap :=
    ⟨_, if_neg fun infinite => absurd finite (not_lt.mpr infinite.2)⟩
  obtain ⟨gap, between⟩ := exists_gap
  rw [misread_float_iff, holds_false_iff]
  cases op with
  | eq =>
    rw [applyOpF64, between] at reported
    have apart : (n : ℚ) ≠ decimalValue text.toList := by
      intro equal
      have same : parseF64 text = i64ToF64 n := by rw [parseF64, ← equal]; rfl
      rw [same, f64_gap_self finite] at between
      obtain rfl := Option.some.inj between
      simp [f64_epsilon_pos] at reported
    simpa using apart
  | ne =>
    rw [applyOpF64, between] at reported
    have close : gap < f64Epsilon := by simpa using reported
    simp [between, close]
  | lt =>
    have written : parseF64 text ≤ i64ToF64 n := by simpa [applyOpF64] using reported
    simp only [reduceCtorEq, false_and, true_and, or_false, false_or, not_and]
    constructor
    · intro above below
      exact absurd below (not_lt.mpr above)
    · intro apart
      by_contra below
      have rounded : i64ToF64 n ≤ parseF64 text := Binary64.round_mono (not_le.mp below).le
      exact apart (not_le.mp below) (le_antisymm rounded written)
  | le =>
    have written : parseF64 text < i64ToF64 n := by simpa [applyOpF64] using reported
    simpa using Binary64.lt_of_round_lt written
  | gt =>
    have written : i64ToF64 n ≤ parseF64 text := by simpa [applyOpF64] using reported
    simp only [reduceCtorEq, false_and, true_and, false_or, not_and]
    constructor
    · intro below above
      exact absurd above (not_lt.mpr below)
    · intro apart
      by_contra above
      have rounded : parseF64 text ≤ i64ToF64 n := Binary64.round_mono (not_le.mp above).le
      exact apart (not_le.mp above) (le_antisymm written rounded)
  | ge =>
    have written : i64ToF64 n < parseF64 text := by simpa [applyOpF64] using reported
    simpa using Binary64.lt_of_round_lt written

theorem misread_string_iff {op : CheckOp} {s q : String} :
    MisreadDefault (.string s) (.string s) (.op op (.string q)) ↔
      (op = .lt ∨ op = .le) ∧ GoesOnBelowQuote (stringContent s) (stringContent q) ∨
      (op = .gt ∨ op = .ge) ∧ GoesOnBelowQuote (stringContent q) (stringContent s) := by
  constructor
  · intro misread
    cases misread with
    | unknown_value bare unknown =>
      obtain ⟨t, same, other⟩ := bare
      cases same
      exact absurd rfl other
    | bare_value bare order same =>
      obtain ⟨t, same, other⟩ := bare
      cases same
      exact absurd rfl other
    | below order quoted goesOn =>
      cases quoted.1
      exact .inl ⟨order, goesOn⟩
    | above order quoted goesOn =>
      cases quoted.1
      exact .inr ⟨order, goesOn⟩
  · rintro (⟨order, goesOn⟩ | ⟨order, goesOn⟩)
    · exact .below order ⟨rfl, rfl⟩ goesOn
    · exact .above order ⟨rfl, rfl⟩ goesOn

theorem strings_false_iff {op : CheckOp} {s q : String} (left : (CheckLiteral.string s).WellQuoted)
    (right : (CheckLiteral.string q).WellQuoted) (reported : applyOpStr op s q = false) :
    op.holds (orderOf (stringContent s) (stringContent q)) = false ↔
      ¬ MisreadDefault (.string s) (.string s) (.op op (.string q)) := by
  have equal := (string_order left right).2
  have below := (string_order left right).1.trans written_order_iff
  have above := (string_order right left).1.trans written_order_iff
  rw [applyOpStr, holds_false_iff] at reported
  rw [misread_string_iff, holds_false_iff]
  cases op with
  | eq => simpa using fun same => reported (equal.mpr same)
  | ne => simpa using equal.mp reported
  | lt =>
    have unwritten := fun plain => not_lt.mpr reported (below.mpr plain)
    simp only [reduceCtorEq, or_false, true_and, false_and]
    constructor
    · intro after goesOn
      exact absurd (goes_on_order goesOn).2 (not_lt.mpr after)
    · intro plain
      by_contra before
      exact unwritten (.inl ⟨not_le.mp before, plain⟩)
  | le =>
    simp only [reduceCtorEq, or_true, or_false, true_and, false_and]
    constructor
    · intro after goesOn
      exact lt_asymm after (goes_on_order goesOn).2
    · intro plain
      exact ((above.mp reported).resolve_right plain).1
  | gt =>
    have unwritten := fun plain => not_lt.mpr reported (above.mpr plain)
    simp only [reduceCtorEq, false_or, or_false, true_and, false_and]
    constructor
    · intro before goesOn
      exact absurd (goes_on_order goesOn).2 (not_lt.mpr before)
    · intro plain
      by_contra after
      exact unwritten (.inl ⟨not_le.mp after, plain⟩)
  | ge =>
    simp only [reduceCtorEq, or_true, false_or, true_and, false_and]
    constructor
    · intro before goesOn
      exact lt_asymm before (goes_on_order goesOn).2
    · intro plain
      exact ((below.mp reported).resolve_right plain).1

theorem unquoted_read {op : CheckOp} {default : DefaultValue} {literal value : CheckLiteral}
    (typed : ∀ s, default ≠ .string s) (value_kind : ∀ text, value ≠ .float text) :
    ¬ MisreadDefault default literal (.op op value) := by
  intro misread
  cases misread with
  | unknown_value bare unknown =>
    obtain ⟨s, same, -⟩ := bare
    exact typed s same
  | bare_value bare order same =>
    obtain ⟨s, same, -⟩ := bare
    exact typed s same
  | below order quoted goesOn => exact typed _ quoted.1
  | above order quoted goesOn => exact typed _ quoted.1
  | near integer apart close => exact value_kind _ rfl
  | merged integer order same => exact value_kind _ rfl

theorem empty_not_quoted {s : String} {p : Prop}
    (quoted : DefaultValue.string "" = .string s ∧ CheckLiteral.string "''" = .string s) : p := by
  have same := (DefaultValue.string.inj quoted.1).trans (CheckLiteral.string.inj quoted.2).symm
  exact absurd same (by decide)

theorem empty_false_iff {op : CheckOp} {q : String} (quoted : (CheckLiteral.string q).WellQuoted)
    (reported : applyOpStr op "" q = false) :
    op.holds (orderOf (stringContent "''") (stringContent q)) = false ↔
      ¬ MisreadDefault (.string "") (.string "''") (.op op (.string q)) := by
  have blank : stringContent "''" = [] := by decide
  have misread_iff : MisreadDefault (.string "") (.string "''") (.op op (.string q)) ↔
      op ≠ .gt ∧ stringContent q = [] := by
    constructor
    · intro misread
      cases misread with
      | unknown_value bare unknown => cases unknown
      | bare_value bare order same =>
        exact ⟨order, (eq_holds (Option.some.inj same)).symm.trans blank⟩
      | below order quoted goesOn => exact empty_not_quoted quoted
      | above order quoted goesOn => exact empty_not_quoted quoted
    · rintro ⟨order, same⟩
      refine .bare_value ⟨"", rfl, by decide⟩ order (congrArg some ?_)
      rw [blank, same]
      simp [CheckOp.holds, order_eq_iff]
  have first : ("" : String).toList < q.toList := by
    rw [quoted q rfl]
    exact List.nil_lt_cons _ _
  rw [applyOpStr, holds_false_iff] at reported
  rw [misread_iff, holds_false_iff, blank]
  cases op with
  | eq =>
    simp only [ne_eq, reduceCtorEq, not_false_eq_true, true_and]
    exact not_congr eq_comm
  | ne => exact absurd reported first.ne
  | lt => exact absurd first (not_lt.mpr reported)
  | le => exact absurd first (lt_asymm reported)
  | gt => exact iff_of_true (not_lt.mp (List.not_lt_nil _)) (by simp)
  | ge =>
    simp only [ne_eq, reduceCtorEq, not_false_eq_true, true_and]
    cases stringContent q <;> simp

theorem value_false_iff {op : CheckOp} {default : DefaultValue} {literal value : CheckLiteral}
    (spelled : Spelling default literal) (quoted : value.WellQuoted)
    (reported : checkSatisfied (.op op value) default = false) :
    compareTruth op literal.value value.value = some false ↔
      ¬ MisreadDefault default literal (.op op value) := by
  cases spelled with
  | @integer n word =>
    cases value with
    | integer m =>
      have judged : op.holds (orderOf (n : ℚ) m) = false := by
        rw [order_cast]
        exact reported
      exact iff_of_true (congrArg some judged) (unquoted_read nofun nofun)
    | float text =>
      rw [← integer_float_false_iff word reported]
      exact Option.some_inj
    | _ => cases reported
  | bool b =>
    cases value with
    | bool c =>
      have judged : op.holds (orderOf b c) = false := by
        cases op <;> simp_all [checkSatisfied, evaluateOp, applyOpBool, holds_false_iff]
      exact iff_of_true (congrArg some judged) (unquoted_read nofun nofun)
    | _ => cases reported
  | @quoted s well =>
    cases value with
    | string q =>
      rw [← strings_false_iff well quoted reported]
      exact Option.some_inj
    | _ => cases reported
  | empty =>
    cases value with
    | string q =>
      rw [← empty_false_iff quoted reported]
      exact Option.some_inj
    | _ => cases reported
  | @bare s literal other =>
    cases value with
    | string q =>
      have unknown : ∀ op, compareTruth op literal.value (CheckLiteral.string q).value = none := by
        intro op
        cases literal with
        | string r => exact absurd rfl (other r)
        | _ => rfl
      refine iff_of_false ?_ (not_not.mpr (.unknown_value ⟨s, rfl, other s⟩ (unknown .eq)))
      rw [unknown]
      nofun
    | _ => cases reported

/-! Violations -/

theorem simple_check_truth {expr : CheckExpr} {column : String} {simple : SimpleColumnCheck}
    (extracted : extractSimpleColumnCheck expr column = some simple) (row : CheckRow) :
    expr.truth row = match simple with
      | .op op value => compareTruth op (row column) value.value
      | .in values => any (values.map fun value => compareTruth .eq (row column) value.value) := by
  unfold extractSimpleColumnCheck at extracted
  split at extracted
  · obtain ⟨rfl, same⟩ := Option.ite_none_right_eq_some.mp extracted
    obtain rfl := Option.some.inj same
    rfl
  · obtain ⟨rfl, same⟩ := Option.ite_none_right_eq_some.mp extracted
    obtain rfl := Option.some.inj same
    rfl
  · cases extracted

theorem simple_check_literals {expr : CheckExpr} {column : String} {simple : SimpleColumnCheck}
    (extracted : extractSimpleColumnCheck expr column = some simple) :
    match simple with
      | .op _ value => value ∈ expr.literals
      | .in values => ∀ value ∈ values, value ∈ expr.literals := by
  unfold extractSimpleColumnCheck at extracted
  split at extracted
  · obtain ⟨rfl, same⟩ := Option.ite_none_right_eq_some.mp extracted
    obtain rfl := Option.some.inj same
    simp [CheckExpr.literals]
  · obtain ⟨rfl, same⟩ := Option.ite_none_right_eq_some.mp extracted
    obtain rfl := Option.some.inj same
    simp [CheckExpr.literals]
  · cases extracted

theorem simple_false_iff {text column : String} {simple : SimpleColumnCheck}
    {default : DefaultValue} {literal : CheckLiteral}
    (extracted : extractSimpleColumnCheck (parseCheckExpr text) column = some simple)
    (spelled : default.literal = some literal) (reported : checkSatisfied simple default = false)
    {row : CheckRow} (holds : row column = literal.value) :
    (parseCheckExpr text).truth row = some false ↔ ¬ MisreadDefault default literal simple := by
  have quoted := parsed_quoted (rfl : parseCheckExpr text = parseCheckExpr text)
  have spelling := spelling_of_literal spelled
  have literals := simple_check_literals extracted
  rw [simple_check_truth extracted]
  cases simple with
  | op op value =>
    rw [holds]
    exact value_false_iff spelling (quoted value literals) reported
  | «in» values =>
    rw [holds]
    exact list_false_iff spelling (fun value mem => quoted value (literals value mem)) reported

theorem violation_found {t : TableDef} {violation : DefaultViolation}
    (reported : validateDefaultVsCheck t = .error violation) :
    ∃ column ∈ t.columns, ∃ default, column.default = some default ∧
      ∃ constraint ∈ t.constraints, violationOf t column default constraint = some violation := by
  unfold validateDefaultVsCheck at reported
  split at reported
  · rename_i found same
    obtain rfl := Except.error.inj reported
    obtain ⟨column, mem, inner⟩ := List.exists_of_findSome?_eq_some same
    obtain ⟨default, given, found⟩ := Option.bind_eq_some_iff.mp inner
    exact ⟨column, mem, default, given, List.exists_of_findSome?_eq_some found⟩
  · cases reported

/-- A default is reported against a check of its column, and if it is a literal, the check is
    false of it unless it was misread. -/
theorem reported_default_false_iff {t : TableDef} {violation : DefaultViolation}
    (reported : validateDefaultVsCheck t = .error violation) :
    ∃ column ∈ t.columns, ∃ default strategy simple, column.default = some default ∧
      .check violation.checkName violation.checkExpr strategy ∈ t.constraints ∧
      violation = ⟨t.name, column.name, default.toSql, violation.checkName, violation.checkExpr⟩ ∧
      extractSimpleColumnCheck (parseCheckExpr violation.checkExpr) column.name = some simple ∧
      ∀ literal, default.literal = some literal →
        ∀ row : CheckRow, row column.name = literal.value →
          ((parseCheckExpr violation.checkExpr).truth row = some false ↔
            ¬ MisreadDefault default literal simple) := by
  obtain ⟨column, mem, default, given, constraint, listed, found⟩ := violation_found reported
  unfold violationOf at found
  split at found
  · rename_i name expr strategy
    split at found
    · cases found
    · rename_i simple extracted
      obtain ⟨unmet, same⟩ := Option.ite_none_left_eq_some.mp found
      obtain rfl := Option.some.inj same
      refine ⟨column, mem, default, strategy, simple, given, listed, rfl, extracted, ?_⟩
      intro literal spelled row holds
      exact simple_false_iff extracted spelled (by simpa using unmet) holds
  · cases found

def rankTable (type : SimpleColumnType) (default : DefaultValue) (expr : String) : TableDef :=
  ⟨"player", none, [{ ColumnDef.new "rank" (.simple type) false with default := some default }],
    [.check "chk_rank" expr .deleteViolatingRows]⟩

theorem zero_rank_false :
    validateDefaultVsCheck (rankTable .integer (.integer 0) "rank > 0") =
        .error ⟨"player", "rank", "0", "chk_rank", "rank > 0"⟩ ∧
      (parseCheckExpr "rank > 0").truth (fun _ => some (.number (0 : Int))) = some false := by
  have parsed : parseCheckExpr "rank > 0" = .compare "rank" .gt (.integer 0) := by rfl
  have reported : validateDefaultVsCheck (rankTable .integer (.integer 0) "rank > 0") =
      .error ⟨"player", "rank", "0", "chk_rank", "rank > 0"⟩ := by decide +kernel
  refine ⟨reported, ?_⟩
  obtain ⟨column, mem, default, strategy, simple, given, -, -, extracted, false_iff⟩ :=
    reported_default_false_iff reported
  obtain rfl := List.mem_singleton.mp mem
  obtain rfl := Option.some.inj given
  rw [parsed] at extracted
  obtain rfl := Option.some.inj extracted
  exact (false_iff (.integer 0) rfl _ rfl).mpr (unquoted_read nofun nofun)

/-- `'a'` comes before `'a b'`, but it is written after it. -/
theorem ordered_default_reported :
    validateDefaultVsCheck (rankTable .text (.string "'a'") "rank < 'a b'") =
        .error ⟨"player", "rank", "'a'", "chk_rank", "rank < 'a b'"⟩ ∧
      (DefaultValue.string "'a'").literal = some (.string "'a'") ∧
      (parseCheckExpr "rank < 'a b'").truth (fun _ => (CheckLiteral.string "'a'").value) =
        some true := by
  have parsed : parseCheckExpr "rank < 'a b'" = .compare "rank" .lt (.string "'a b'") := by rfl
  refine ⟨by decide +kernel, by decide +kernel, ?_⟩
  rw [parsed]
  decide +kernel

end Vespertide
