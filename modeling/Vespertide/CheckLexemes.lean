import Mathlib.Data.List.TakeWhile
import Vespertide.CheckExpr

/-!
How the tokens of a CHECK expression are written, and the lexer that reads
exactly such texts. Whitespace may stand between any two tokens.
-/
namespace Vespertide

/-! Numbers -/

def DigitText (s : List Char) : Prop := ∀ c ∈ s, c.isDigit = true

inductive SignText : List Char → Prop where
  | none : SignText []
  | plus : SignText ['+']
  | minus : SignText ['-']

inductive FractionText : List Char → Prop where
  | none : FractionText []
  | some {digits : List Char} (read : DigitText digits) : FractionText ('.' :: digits)

inductive ExponentText : List Char → Prop where
  | none : ExponentText []
  | some {letter : Char} {sign digits : List Char} (opens : letter = 'e' ∨ letter = 'E')
      (signed : SignText sign) (read : DigitText digits) (present : digits ≠ []) :
      ExponentText (letter :: (sign ++ digits))

/-- The parts of a decimal number: a digit stands before the exponent. -/
structure NumberParts where
  sign : List Char
  whole : List Char
  fraction : List Char
  exponent : List Char
  signed : SignText sign
  digits : DigitText whole
  point : FractionText fraction
  scale : ExponentText exponent
  present : whole ≠ [] ∨ 1 < fraction.length

namespace NumberParts

def text (n : NumberParts) : List Char := n.sign ++ (n.whole ++ (n.fraction ++ n.exponent))

def value (n : NumberParts) : Int :=
  if n.sign = ['-'] then -(digitsValue n.whole : Int) else digitsValue n.whole

/-- A whole number of 64 bits is an integer, any other number a float. -/
def token (n : NumberParts) : CheckToken :=
  if n.fraction = [] ∧ n.exponent = [] ∧
      -9223372036854775808 ≤ n.value ∧ n.value ≤ 9223372036854775807 then .integer n.value
  else .float (String.ofList n.text)

def EndsAt (n : NumberParts) (next : Option Char) : Prop :=
  ∀ c, next = some c → c.isDigit = false ∧ c ≠ '.' ∧
    (n.exponent = [] → c ≠ 'e' ∧ c ≠ 'E')

end NumberParts

/-! Tokens -/

inductive OperatorText : CheckOp → List Char → Prop where
  | lt : OperatorText .lt ['<']
  | le : OperatorText .le ['<', '=']
  | gt : OperatorText .gt ['>']
  | ge : OperatorText .ge ['>', '=']
  | eq : OperatorText .eq ['=']
  | ne : OperatorText .ne ['<', '>']
  | bang : OperatorText .ne ['!', '=']

inductive LiteralMayStart : Option CheckToken → Prop where
  | first : LiteralMayStart none
  | operator (op : CheckOp) : LiteralMayStart (some (.op op))
  | opening : LiteralMayStart (some .lparen)
  | separator : LiteralMayStart (some .comma)
  | keyword (kw : CheckKeyword) (before : kw ∈ [.and, .or, .not, .between, .in, .is]) :
      LiteralMayStart (some (.keyword kw))

/-- The token after `before`, its text, and a rest that does not go on with it. -/
inductive Lexeme (before : Option CheckToken) : CheckToken → List Char → List Char → Prop where
  | opening (rest : List Char) : Lexeme before .lparen ['('] rest
  | closing (rest : List Char) : Lexeme before .rparen [')'] rest
  | separator (rest : List Char) : Lexeme before .comma [','] rest
  | string (content : List Char) {rest : List Char} (closed : rest.head? ≠ some '\'') :
      Lexeme before (.quotedString (String.ofList (Text.quote '\'' content)))
        (Text.quote '\'' content) rest
  | operator {op : CheckOp} {text rest : List Char} (written : OperatorText op text)
      (longest : ∀ c, rest.head? = some c → ∀ longer, ¬ OperatorText longer (text ++ [c])) :
      Lexeme before (.op op) text rest
  | unsigned (n : NumberParts) {rest : List Char} (plain : n.sign = []) (leading : n.whole ≠ [])
      (ends : n.EndsAt rest.head?) : Lexeme before n.token n.text rest
  | signed (n : NumberParts) {rest : List Char} (sign : n.sign ≠ [])
      (slot : LiteralMayStart before) (ends : n.EndsAt rest.head?) :
      Lexeme before n.token n.text rest
  | keyword {kw : CheckKeyword} {name : String} {c : Char} {word rest : List Char}
      (listed : (name, kw) ∈ checkKeywords) (first : c.isAlpha = true ∨ c = '_')
      (others : ∀ d ∈ word, isAsciiWord d = true)
      (ends : ∀ d, rest.head? = some d → isAsciiWord d = false)
      (same : Text.eqIgnoreAsciiCase (c :: word) name.toList = true) :
      Lexeme before (.keyword kw) (c :: word) rest
  | identifier {c : Char} {word rest : List Char} (first : c.isAlpha = true ∨ c = '_')
      (others : ∀ d ∈ word, isAsciiWord d = true)
      (ends : ∀ d, rest.head? = some d → isAsciiWord d = false)
      (free : ∀ entry ∈ checkKeywords,
        Text.eqIgnoreAsciiCase (c :: word) entry.1.toList = false) :
      Lexeme before (.ident (String.ofList (c :: word))) (c :: word) rest

/-- The tokens of a text that stands after `before`. -/
inductive Lexes : Option CheckToken → List Char → List CheckToken → Prop where
  | done (before : Option CheckToken) : Lexes before [] []
  | blank {before : Option CheckToken} {c : Char} {rest : List Char} {tokens : List CheckToken}
      (space : isAsciiWhitespace c = true) (others : Lexes before rest tokens) :
      Lexes before (c :: rest) tokens
  | token {before : Option CheckToken} {token : CheckToken} {text rest : List Char}
      {tokens : List CheckToken} (lexeme : Lexeme before token text rest)
      (others : Lexes (some token) rest tokens) : Lexes before (text ++ rest) (token :: tokens)

/-! Runs of characters -/

theorem take_while_rest_sound {p : Char → Bool} {s taken rest : List Char}
    (read : takeWhileRest p s = (taken, rest)) :
    s = taken ++ rest ∧ (∀ c ∈ taken, p c = true) ∧ ∀ c, rest.head? = some c → p c = false := by
  cases read
  refine ⟨(List.takeWhile_append_dropWhile).symm, fun c mem => List.mem_takeWhile_imp mem, ?_⟩
  intro c head
  have stop := List.head?_dropWhile_not p s
  rw [head] at stop
  simpa using stop

theorem take_while_rest_complete {p : Char → Bool} {taken rest : List Char}
    (inside : ∀ c ∈ taken, p c = true) (ends : ∀ c, rest.head? = some c → p c = false) :
    takeWhileRest p (taken ++ rest) = (taken, rest) := by
  induction taken with
  | nil =>
    cases rest with
    | nil => rfl
    | cons c rest => simp [takeWhileRest, ends c rfl]
  | cons c taken ih =>
    have later := ih fun d mem => inside d (List.mem_cons_of_mem c mem)
    have here := inside c List.mem_cons_self
    simp only [takeWhileRest, Prod.mk.injEq] at later
    simp [takeWhileRest, here, later]

/-! Quoted strings -/

def closing (content : List Char) : List Char := (Text.quote '\'' content).tail

theorem quote_closing (content : List Char) :
    Text.quote '\'' content = '\'' :: closing content := rfl

theorem closing_nil : closing [] = ['\''] := rfl

theorem closing_quote (content : List Char) :
    closing ('\'' :: content) = '\'' :: '\'' :: closing content := by
  simp [closing, Text.quote]

theorem closing_other {c : Char} (other : c ≠ '\'') (content : List Char) :
    closing (c :: content) = c :: closing content := by
  simp [closing, Text.quote, other]

theorem take_quoted_complete (content : List Char) {rest : List Char}
    (closed : rest.head? ≠ some '\'') :
    takeQuoted (closing content ++ rest) = some (closing content, rest) := by
  induction content with
  | nil =>
    cases rest with
    | nil => rfl
    | cons d rest =>
      have other : d ≠ '\'' := by simpa using closed
      simp [closing_nil, takeQuoted, other]
  | cons c content ih =>
    by_cases same : c = '\''
    · subst same
      simp [closing_quote, takeQuoted, ih]
    · simp [closing_other same, takeQuoted, same, ih]

theorem take_quoted_sound {s body rest : List Char} (read : takeQuoted s = some (body, rest)) :
    ∃ content, body = closing content ∧ s = body ++ rest ∧ rest.head? ≠ some '\'' := by
  induction s using takeQuoted.induct generalizing body with
  | case1 => cases read
  | case2 s ih =>
    obtain ⟨⟨inner, after⟩, more, same⟩ := Option.map_eq_some_iff.1 read
    cases same
    obtain ⟨content, shape, split, closed⟩ := ih more
    refine ⟨'\'' :: content, ?_, by simp [split], closed⟩
    rw [closing_quote, shape]
  | case3 s open_ =>
    have apart : s.head? ≠ some '\'' := by
      intro head
      obtain ⟨rest, split⟩ := List.head?_eq_some_iff.1 head
      exact open_ rest split
    have ends : takeQuoted ('\'' :: s) = some (['\''], s) := take_quoted_complete [] apart
    rw [ends] at read
    cases read
    exact ⟨[], rfl, rfl, apart⟩
  | case4 c s notDoubled notClosed ih =>
    have other : c ≠ '\'' := by
      rintro rfl
      exact notClosed rfl
    have step : takeQuoted (c :: s) =
        (takeQuoted s).map fun read => (c :: read.1, read.2) := by
      simp [takeQuoted]
    rw [step] at read
    obtain ⟨⟨inner, after⟩, more, same⟩ := Option.map_eq_some_iff.1 read
    cases same
    obtain ⟨content, shape, split, closed⟩ := ih more
    refine ⟨c :: content, ?_, by simp [split], closed⟩
    rw [closing_other other, shape]

/-! Operators and words -/

theorem take_op_sound {s text rest : List Char} {op : CheckOp}
    (read : takeOp s = some (op, text, rest)) :
    s = text ++ rest ∧ OperatorText op text ∧
      ∀ c, rest.head? = some c → ∀ longer, ¬ OperatorText longer (text ++ [c]) := by
  unfold takeOp at read
  split at read <;> cases read
  · exact ⟨rfl, .le, fun c _ longer written => nomatch written⟩
  · exact ⟨rfl, .ge, fun c _ longer written => nomatch written⟩
  · exact ⟨rfl, .ne, fun c _ longer written => nomatch written⟩
  · exact ⟨rfl, .bang, fun c _ longer written => nomatch written⟩
  · refine ⟨rfl, .lt, fun c head longer written => ?_⟩
    cases rest with
    | nil => cases head
    | cons d rest =>
      cases head
      cases written <;> simp_all
  · refine ⟨rfl, .gt, fun c head longer written => ?_⟩
    cases rest with
    | nil => cases head
    | cons d rest =>
      cases head
      cases written
      simp_all
  · refine ⟨rfl, .eq, fun c head longer written => ?_⟩
    cases written

theorem take_op_complete {op : CheckOp} {text rest : List Char} (written : OperatorText op text)
    (longest : ∀ c, rest.head? = some c → ∀ longer, ¬ OperatorText longer (text ++ [c])) :
    takeOp (text ++ rest) = some (op, text, rest) := by
  cases written with
  | lt =>
    cases rest with
    | nil => rfl
    | cons c rest =>
      have notEq : c ≠ '=' := fun same => longest c rfl .le (same ▸ .le)
      have notGt : c ≠ '>' := fun same => longest c rfl .ne (same ▸ .ne)
      simp [takeOp, notEq, notGt]
  | gt =>
    cases rest with
    | nil => rfl
    | cons c rest =>
      have notEq : c ≠ '=' := fun same => longest c rfl .ge (same ▸ .ge)
      simp [takeOp, notEq]
  | le => rfl
  | ge => rfl
  | eq => rfl
  | ne => rfl
  | bang => rfl

theorem keywords_distinct {a b : String × CheckKeyword} (left : a ∈ checkKeywords)
    (right : b ∈ checkKeywords) {word : List Char}
    (first : Text.eqIgnoreAsciiCase word a.1.toList = true)
    (second : Text.eqIgnoreAsciiCase word b.1.toList = true) : a = b :=
  Text.spelled_once (by decide) left right first second

theorem classify_word_iff (word : List Char) (token : CheckToken) :
    classifyWord word = token ↔
      (∃ name kw, (name, kw) ∈ checkKeywords ∧ token = .keyword kw ∧
        Text.eqIgnoreAsciiCase word name.toList = true) ∨
      ((∀ entry ∈ checkKeywords, Text.eqIgnoreAsciiCase word entry.1.toList = false) ∧
        token = .ident (String.ofList word)) := by
  unfold classifyWord
  split
  · rename_i text kw found
    have listed := List.mem_of_find?_eq_some found
    have matched := List.find?_some found
    constructor
    · intro same
      subst same
      exact .inl ⟨text, kw, listed, rfl, matched⟩
    · intro cases
      rcases cases with ⟨name, kw', mem, same, written⟩ | ⟨free, same⟩
      · have one := keywords_distinct listed mem matched written
        cases one
        exact same.symm
      · have none := free (text, kw) listed
        simp [none] at matched
  · rename_i found
    have free := List.find?_eq_none.1 found
    constructor
    · intro same
      subst same
      exact .inr ⟨fun entry mem => by simpa using free entry mem, rfl⟩
    · intro cases
      rcases cases with ⟨name, kw, mem, same, written⟩ | ⟨_, same⟩
      · exact absurd written (free _ mem)
      · exact same.symm

theorem take_sign_sound {s sign rest : List Char} (read : takeSign s = (sign, rest)) :
    s = sign ++ rest ∧ SignText sign := by
  unfold takeSign at read
  split at read
  · rename_i c tail
    by_cases marked : c = '+' ∨ c = '-'
    · rw [if_pos marked] at read
      cases read
      cases marked with
      | inl plus => subst plus; exact ⟨rfl, .plus⟩
      | inr minus => subst minus; exact ⟨rfl, .minus⟩
    · rw [if_neg marked] at read
      cases read
      exact ⟨rfl, .none⟩
  · cases read
    exact ⟨rfl, .none⟩

theorem take_sign_complete {sign rest : List Char} (signed : SignText sign)
    (unmarked : ∀ c, rest.head? = some c → c ≠ '+' ∧ c ≠ '-') :
    takeSign (sign ++ rest) = (sign, rest) := by
  cases signed with
  | none =>
    cases rest with
    | nil => rfl
    | cons c rest =>
      obtain ⟨notPlus, notMinus⟩ := unmarked c rfl
      simp [takeSign, notPlus, notMinus]
  | plus => rfl
  | minus => rfl

theorem sign_marks {sign : List Char} (signed : SignText sign) : ∀ c ∈ sign, c = '+' ∨ c = '-' := by
  cases signed <;> simp

theorem fraction_marks {fraction : List Char} (point : FractionText fraction) :
    ∀ c ∈ fraction, c = '.' ∨ c.isDigit = true := by
  cases point with
  | none => simp
  | some read =>
    intro c mem
    cases mem with
    | head => exact .inl rfl
    | tail _ mem => exact .inr (read c mem)

theorem digit_unmarked {c : Char} (digit : c.isDigit = true) :
    c ≠ '+' ∧ c ≠ '-' ∧ c ≠ '.' ∧ c ≠ 'e' ∧ c ≠ 'E' := by
  refine ⟨?_, ?_, ?_, ?_, ?_⟩ <;>
    · rintro rfl
      exact absurd digit (by decide)

theorem exponent_head {exponent : List Char} (scale : ExponentText exponent) (c : Char)
    (head : exponent.head? = some c) : c = 'e' ∨ c = 'E' := by
  cases scale with
  | none => cases head
  | some opens signed read present =>
    cases head
    exact opens

theorem fraction_head {fraction exponent : List Char} (point : FractionText fraction)
    (scale : ExponentText exponent) (c : Char) (head : (fraction ++ exponent).head? = some c) :
    c = '.' ∨ c = 'e' ∨ c = 'E' := by
  cases point with
  | none => exact .inr (exponent_head scale c head)
  | some read =>
    cases head
    exact .inl rfl

theorem digits_head {digits : List Char} (read : DigitText digits) (rest : List Char)
    (present : digits ≠ []) : ∃ c, (digits ++ rest).head? = some c ∧ c.isDigit = true := by
  cases digits with
  | nil => exact absurd rfl present
  | cons c digits => exact ⟨c, rfl, read c List.mem_cons_self⟩

theorem take_exponent_sound {s exponent rest : List Char}
    (read : takeExponent s = (exponent, rest)) :
    s = exponent ++ rest ∧
      ((exponent = [] ∧ ∀ c, rest.head? = some c → c ≠ 'e' ∧ c ≠ 'E') ∨
        (∃ letter tail, exponent = letter :: tail ∧ (letter = 'e' ∨ letter = 'E') ∧
          ∀ c, rest.head? = some c → c.isDigit = false)) := by
  unfold takeExponent at read
  split at read
  · cases read
    exact ⟨rfl, .inl ⟨rfl, by simp⟩⟩
  · rename_i c tail
    by_cases opens : c = 'e' ∨ c = 'E'
    · rw [if_pos opens] at read
      cases signed : takeSign tail with
      | mk sign after =>
        cases digits : takeWhileRest Char.isDigit after with
        | mk run following =>
          simp only [signed, digits, Prod.mk.injEq] at read
          obtain ⟨shape, same⟩ := read
          obtain ⟨split, _⟩ := take_sign_sound signed
          obtain ⟨splitDigits, _, ends⟩ := take_while_rest_sound digits
          subst same
          refine ⟨?_, .inr ⟨c, sign ++ run, shape.symm, opens, ends⟩⟩
          rw [split, splitDigits, ← shape]
          simp
    · rw [if_neg opens] at read
      cases read
      refine ⟨rfl, .inl ⟨rfl, ?_⟩⟩
      intro d head
      cases head
      exact not_or.1 opens

theorem take_exponent_complete {exponent rest : List Char} (scale : ExponentText exponent)
    (ends : ∀ c, rest.head? = some c →
      c.isDigit = false ∧ (exponent = [] → c ≠ 'e' ∧ c ≠ 'E')) :
    takeExponent (exponent ++ rest) = (exponent, rest) := by
  cases scale with
  | none =>
    cases rest with
    | nil => rfl
    | cons c rest =>
      obtain ⟨notSmall, notLarge⟩ := (ends c rfl).2 rfl
      simp [takeExponent, notSmall, notLarge]
  | some opens signed read present =>
    rename_i letter sign digits
    obtain ⟨c, first, digit⟩ := digits_head read rest present
    have signs : takeSign (sign ++ (digits ++ rest)) = (sign, digits ++ rest) := by
      apply take_sign_complete signed
      intro d head
      rw [first] at head
      cases head
      exact ⟨(digit_unmarked digit).1, (digit_unmarked digit).2.1⟩
    have runs : takeWhileRest Char.isDigit (digits ++ rest) = (digits, rest) :=
      take_while_rest_complete read fun c head => (ends c head).1
    simp only [takeExponent, List.cons_append, if_pos opens, List.append_assoc, signs, runs]

namespace NumberParts

def body (n : NumberParts) : List Char := n.whole ++ (n.fraction ++ n.exponent)

theorem text_eq (n : NumberParts) : n.text = n.sign ++ n.body := rfl

theorem body_head (n : NumberParts) : ∃ c, n.body.head? = some c ∧ (c.isDigit = true ∨ c = '.') := by
  by_cases leading : n.whole = []
  · obtain present | present := n.present
    · exact absurd leading present
    · cases point : n.fraction with
      | nil => simp [point] at present
      | cons c digits =>
        have dot := n.point
        rw [point] at dot
        cases dot
        exact ⟨'.', by simp [body, leading, point], .inr rfl⟩
  · obtain ⟨c, first, digit⟩ := digits_head n.digits (n.fraction ++ n.exponent) leading
    exact ⟨c, first, .inl digit⟩

theorem sign_taken (n : NumberParts) (rest : List Char) :
    takeSign (n.text ++ rest) = (n.sign, n.body ++ rest) := by
  rw [text_eq, List.append_assoc]
  apply take_sign_complete n.signed
  intro c head
  obtain ⟨d, first, shape⟩ := n.body_head
  rw [List.head?_append, first] at head
  cases head
  cases shape with
  | inl digit => exact ⟨(digit_unmarked digit).1, (digit_unmarked digit).2.1⟩
  | inr dot => subst dot; decide

theorem digits_only_iff (n : NumberParts) :
    n.body.all Char.isDigit = true ↔ n.fraction = [] ∧ n.exponent = [] := by
  constructor
  · intro digits
    have nothing : n.fraction ++ n.exponent = [] := by
      cases shape : n.fraction ++ n.exponent with
      | nil => rfl
      | cons c tail =>
        have first := fraction_head n.point n.scale c (by rw [shape]; rfl)
        have digit := List.all_eq_true.1 digits c (by simp [body, shape])
        have apart := digit_unmarked digit
        simp_all
    exact List.append_eq_nil_iff.1 nothing
  · intro ⟨noFraction, noExponent⟩
    rw [body, noFraction, noExponent, List.append_nil, List.append_nil, List.all_eq_true]
    exact n.digits

theorem whole_present (n : NumberParts) (plain : n.fraction = []) : n.whole ≠ [] := by
  cases n.present with
  | inl present => exact present
  | inr present =>
    rw [plain] at present
    exact absurd present (by decide)

theorem body_present (n : NumberParts) : n.body ≠ [] := by
  obtain ⟨c, first, _⟩ := n.body_head
  intro empty
  rw [empty] at first
  cases first

theorem parsed_i64 (n : NumberParts) :
    parseI64 n.text =
      if n.fraction = [] ∧ n.exponent = [] ∧
        -9223372036854775808 ≤ n.value ∧ n.value ≤ 9223372036854775807 then some n.value
      else none := by
  have signed := n.sign_taken []
  simp only [List.append_nil] at signed
  unfold parseI64
  rw [signed]
  by_cases plain : n.fraction = [] ∧ n.exponent = []
  · have digits := n.digits_only_iff.2 plain
    have same : n.body = n.whole := by simp [body, plain.1, plain.2]
    rw [same] at digits
    simp only [same, n.whole_present plain.1, digits, plain.1, plain.2, true_and]
    rfl
  · have mixed : ¬ n.body.all Char.isDigit = true := fun digits =>
      plain (n.digits_only_iff.1 digits)
    rw [if_neg fun all => plain ⟨all.1, all.2.1⟩]
    simp [mixed]

end NumberParts

def takeFraction (s : List Char) : List Char × List Char :=
  match s with
  | '.' :: rest => takeWhileRest Char.isDigit rest
  | rest => ([], rest)

def isExponent (s : List Char) : Bool :=
  match s with
  | [] => true
  | c :: rest =>
      let (_, digits) := takeSign rest
      (c = 'e' ∨ c = 'E') ∧ digits ≠ [] ∧ digits.all Char.isDigit

theorem is_f64_eq (raw : List Char) :
    isF64 raw =
      let (_, body) := takeSign raw
      let (whole, rest) := takeWhileRest Char.isDigit body
      let (fraction, rest) := takeFraction rest
      decide ((whole ≠ [] ∨ fraction ≠ []) ∧ isExponent rest = true) := by
  unfold isF64 takeFraction isExponent
  rfl

theorem is_exponent_iff (s : List Char) : isExponent s = true ↔ ExponentText s := by
  cases s with
  | nil => exact iff_of_true rfl .none
  | cons c rest =>
    constructor
    · intro holds
      cases signed : takeSign rest with
      | mk sign digits =>
        simp only [isExponent, signed, decide_eq_true_eq, List.all_eq_true] at holds
        obtain ⟨split, marked⟩ := take_sign_sound signed
        rw [split]
        exact .some holds.1 marked holds.2.2 holds.2.1
    · intro scale
      cases scale with
      | some opens signed read present =>
        rename_i sign digits
        have signs : takeSign (sign ++ digits) = (sign, digits) := by
          apply take_sign_complete signed
          intro d head
          obtain ⟨c, first, digit⟩ := digits_head read [] present
          rw [List.append_nil, head] at first
          cases first
          exact ⟨(digit_unmarked digit).1, (digit_unmarked digit).2.1⟩
        simp only [isExponent, signs, decide_eq_true_eq, List.all_eq_true]
        exact ⟨opens, present, read⟩

theorem take_fraction_sound {s digits rest : List Char}
    (read : takeFraction s = (digits, rest)) :
    ∃ fraction, fraction = (if s.head? = some '.' then '.' :: digits else []) ∧
      FractionText fraction ∧ s = fraction ++ rest ∧ digits = fraction.tail ∧
      ((∀ c, s.head? = some c → c.isDigit = false) →
        ∀ c, rest.head? = some c → c.isDigit = false) := by
  unfold takeFraction at read
  split at read
  · obtain ⟨split, inside, ends⟩ := take_while_rest_sound read
    exact ⟨'.' :: digits, rfl, .some inside, by rw [split]; rfl, rfl, fun _ => ends⟩
  · rename_i plain
    cases read
    have unmarked : s.head? ≠ some '.' := by
      intro head
      obtain ⟨tail, split⟩ := List.head?_eq_some_iff.1 head
      exact plain tail split
    exact ⟨[], (if_neg unmarked).symm, .none, rfl, rfl, id⟩

theorem take_fraction_complete {fraction rest : List Char} (point : FractionText fraction)
    (ends : ∀ c, rest.head? = some c → c.isDigit = false ∧ c ≠ '.') :
    takeFraction (fraction ++ rest) = (fraction.tail, rest) := by
  cases point with
  | none =>
    unfold takeFraction
    split
    · rename_i after dotted
      have first := ends '.' (by rw [← List.nil_append rest, dotted]; rfl)
      exact absurd rfl first.2
    · rfl
  | some read => exact take_while_rest_complete read fun c head => (ends c head).1

namespace NumberParts

theorem is_f64 (n : NumberParts) : isF64 n.text = true := by
  have signs := n.sign_taken []
  simp only [List.append_nil] at signs
  have run : takeWhileRest Char.isDigit n.body = (n.whole, n.fraction ++ n.exponent) := by
    apply take_while_rest_complete n.digits
    intro c head
    obtain rfl | rfl | rfl := fraction_head n.point n.scale c head <;> decide
  have point : takeFraction (n.fraction ++ n.exponent) = (n.fraction.tail, n.exponent) := by
    apply take_fraction_complete n.point
    intro c head
    obtain rfl | rfl := exponent_head n.scale c head <;> decide
  have scale := (is_exponent_iff n.exponent).2 n.scale
  rw [is_f64_eq]
  simp only [signs, run, point, scale, and_true, decide_eq_true_eq]
  obtain present | present := n.present
  · exact .inl present
  · refine .inr fun empty => ?_
    have short := congrArg List.length empty
    simp only [List.length_tail, List.length_nil] at short
    omega

theorem of_is_f64 {raw : List Char} (float : isF64 raw = true) :
    ∃ n : NumberParts, raw = n.text := by
  rw [is_f64_eq] at float
  cases signs : takeSign raw with
  | mk sign body =>
    cases run : takeWhileRest Char.isDigit body with
    | mk whole tail =>
      cases dotted : takeFraction tail with
      | mk digits exponent =>
        simp only [signs, run, dotted, decide_eq_true_eq] at float
        obtain ⟨split, signed⟩ := take_sign_sound signs
        obtain ⟨splitBody, inside, _⟩ := take_while_rest_sound run
        obtain ⟨fraction, _, point, splitTail, shape, _⟩ := take_fraction_sound dotted
        have present : whole ≠ [] ∨ 1 < fraction.length := by
          refine float.1.imp id fun some => ?_
          cases point with
          | none => exact absurd shape some
          | some read =>
            subst shape
            simpa [List.length_pos_iff] using some
        have scale := (is_exponent_iff exponent).1 float.2
        refine ⟨⟨sign, whole, fraction, exponent, signed, inside, point, scale, present⟩, ?_⟩
        rw [split, splitBody, splitTail]
        rfl

theorem of_parse_i64 {raw : List Char} {v : Int} (integer : parseI64 raw = some v) :
    ∃ n : NumberParts, raw = n.text := by
  unfold parseI64 at integer
  cases signs : takeSign raw with
  | mk sign digits =>
    simp only [signs] at integer
    split at integer
    · cases integer
    · rename_i proper
      rw [not_or, not_not] at proper
      obtain ⟨split, signed⟩ := take_sign_sound signs
      refine ⟨⟨sign, digits, [], [], signed, List.all_eq_true.1 proper.2, .none, .none,
        .inl proper.1⟩, ?_⟩
      simp [text, split]

theorem parsed_token (n : NumberParts) : parseNumberToken n.text = some n.token := by
  unfold parseNumberToken token
  rw [n.parsed_i64, n.is_f64]
  by_cases whole : n.fraction = [] ∧ n.exponent = [] ∧
      -9223372036854775808 ≤ n.value ∧ n.value ≤ 9223372036854775807
  · rw [if_pos whole, if_pos whole]
  · rw [if_neg whole, if_neg whole]
    rfl

end NumberParts

theorem parse_number_iff (raw : List Char) (token : CheckToken) :
    parseNumberToken raw = some token ↔ ∃ n : NumberParts, raw = n.text ∧ token = n.token := by
  constructor
  · intro parsed
    have written : ∃ n : NumberParts, raw = n.text := by
      unfold parseNumberToken at parsed
      split at parsed
      · rename_i v integer
        exact NumberParts.of_parse_i64 integer
      · split at parsed
        · rename_i float
          exact NumberParts.of_is_f64 float
        · cases parsed
    obtain ⟨n, shape⟩ := written
    rw [shape, n.parsed_token] at parsed
    cases parsed
    exact ⟨n, shape, rfl⟩
  · intro ⟨n, shape, same⟩
    rw [shape, same]
    exact n.parsed_token

theorem take_number_eq (s : List Char) :
    takeNumber s =
      let (whole, rest) := takeWhileRest Char.isDigit s
      let (digits, after) := takeFraction rest
      let (exponent, unread) := takeExponent after
      let fraction := if rest.head? = some '.' then '.' :: digits else []
      (whole ++ fraction ++ exponent, unread) := by
  unfold takeNumber takeFraction
  cases run : takeWhileRest Char.isDigit s with
  | mk whole rest =>
    dsimp only
    split
    · simp
    · rename_i plain
      have unmarked : rest.head? ≠ some '.' := by
        intro head
        obtain ⟨tail, split⟩ := List.head?_eq_some_iff.1 head
        exact plain tail split
      simp [unmarked]

namespace NumberParts

theorem no_letters (n : NumberParts) (none : n.exponent = []) :
    ∀ c ∈ n.text, c ≠ 'e' ∧ c ≠ 'E' := by
  have digit : ∀ {c : Char}, c.isDigit = true → c ≠ 'e' ∧ c ≠ 'E' := fun read =>
    ⟨(digit_unmarked read).2.2.2.1, (digit_unmarked read).2.2.2.2⟩
  intro c mem
  simp only [text, none, List.append_nil, List.mem_append] at mem
  obtain mem | mem | mem := mem
  · obtain rfl | rfl := sign_marks n.signed c mem <;> decide
  · exact digit (n.digits c mem)
  · obtain rfl | read := fraction_marks n.point c mem
    · decide
    · exact digit read

theorem ends_at {n : NumberParts} {front after exponent rest : List Char}
    (shape : n.text = front ++ exponent) (taken : takeExponent after = (exponent, rest))
    (before : ∀ c, after.head? = some c → c.isDigit = false) (undotted : rest.head? ≠ some '.') :
    n.EndsAt rest.head? := by
  obtain ⟨split, cases⟩ := take_exponent_sound taken
  intro c head
  have dot : c ≠ '.' := by
    rintro rfl
    exact undotted head
  obtain ⟨none, stops⟩ | ⟨letter, tail, some, opens, digits⟩ := cases
  · rw [none, List.nil_append] at split
    rw [split] at before
    exact ⟨before c head, dot, fun _ => stops c head⟩
  · refine ⟨digits c head, dot, fun none => ?_⟩
    have apart := n.no_letters none letter (by simp [shape, some])
    obtain rfl | rfl := opens
    · exact absurd rfl apart.1
    · exact absurd rfl apart.2

end NumberParts

theorem signed_number_sound {c : Char} {s body rest : List Char} {token : CheckToken}
    (marked : c = '-' ∨ c = '+') (taken : takeSignedNumber s = (body, rest))
    (parsed : parseNumberToken (c :: body) = some token) (undotted : rest.head? ≠ some '.') :
    s = body ++ rest ∧ ∃ n : NumberParts, c :: body = n.text ∧ token = n.token ∧
      n.sign ≠ [] ∧ n.EndsAt rest.head? := by
  obtain ⟨n, shape, same⟩ := (parse_number_iff _ _).1 parsed
  unfold takeSignedNumber at taken
  cases run : takeWhileRest (fun c => c.isDigit || c = '.') s with
  | mk front after =>
    cases scaled : takeExponent after with
    | mk exponent unread =>
      simp only [run, scaled, Prod.mk.injEq] at taken
      obtain ⟨whole, left⟩ := taken
      subst left whole
      obtain ⟨split, _, ends⟩ := take_while_rest_sound run
      obtain ⟨splitAfter, _⟩ := take_exponent_sound scaled
      refine ⟨by rw [split, splitAfter, List.append_assoc], n, shape, same, ?_, ?_⟩
      · intro plain
        obtain ⟨d, first, digit⟩ := n.body_head
        rw [NumberParts.text_eq, plain, List.nil_append] at shape
        rw [← shape] at first
        cases first
        obtain rfl | rfl := marked <;> revert digit <;> decide
      · have parts : n.text = (c :: front) ++ exponent := by rw [← shape]; rfl
        refine NumberParts.ends_at parts scaled ?_ undotted
        intro d head
        have apart := ends d head
        simp only [Bool.or_eq_false_iff] at apart
        exact apart.1

theorem number_sound {c : Char} {s text rest : List Char} {token : CheckToken}
    (digit : c.isDigit = true) (taken : takeNumber (c :: s) = (text, rest))
    (parsed : parseNumberToken text = some token) (undotted : rest.head? ≠ some '.') :
    c :: s = text ++ rest ∧ ∃ n : NumberParts, text = n.text ∧ token = n.token ∧
      n.sign = [] ∧ n.whole ≠ [] ∧ n.EndsAt rest.head? := by
  obtain ⟨n, shape, same⟩ := (parse_number_iff _ _).1 parsed
  rw [take_number_eq] at taken
  cases run : takeWhileRest Char.isDigit (c :: s) with
  | mk whole after =>
    cases dotted : takeFraction after with
    | mk digits following =>
      cases scaled : takeExponent following with
      | mk exponent unread =>
        simp only [run, dotted, scaled, Prod.mk.injEq] at taken
        obtain ⟨parts, left⟩ := taken
        subst left
        obtain ⟨split, _, ends⟩ := take_while_rest_sound run
        obtain ⟨fraction, point, _, splitAfter, _, undigit⟩ := take_fraction_sound dotted
        obtain ⟨splitFollowing, _⟩ := take_exponent_sound scaled
        rw [← point] at parts
        have whole : c :: s = text ++ unread := by
          rw [split, splitAfter, splitFollowing, ← parts]
          simp
        have first : n.text.head? = some c := by
          have head := congrArg List.head? whole
          rw [shape, List.head?_append, List.head?_cons] at head
          cases empty : n.text.head? with
          | none =>
            have nothing := List.head?_eq_none_iff.1 empty
            exact absurd (List.append_eq_nil_iff.1 nothing).2 n.body_present
          | some d => simpa [empty] using head.symm
        have plain : n.sign = [] := by
          cases sign : n.sign with
          | nil => rfl
          | cons d others =>
            rw [NumberParts.text_eq, sign, List.cons_append, List.head?_cons] at first
            cases first
            obtain rfl | rfl := sign_marks n.signed c (by simp [sign]) <;>
              exact absurd digit (by decide)
        have leading : n.whole ≠ [] := by
          intro none
          have head : (n.fraction ++ n.exponent).head? = some c := by
            simpa [NumberParts.text, plain, none] using first
          obtain rfl | rfl | rfl := fraction_head n.point n.scale c head <;>
            exact absurd digit (by decide)
        exact ⟨whole, n, shape, same, plain, leading,
          NumberParts.ends_at (shape.symm.trans parts.symm) scaled (undigit ends) undotted⟩

theorem signed_number_complete (n : NumberParts) {rest : List Char}
    (ends : n.EndsAt rest.head?) : takeSignedNumber (n.body ++ rest) = (n.body, rest) := by
  have run : takeWhileRest (fun c => c.isDigit || c = '.')
      ((n.whole ++ n.fraction) ++ (n.exponent ++ rest)) =
        (n.whole ++ n.fraction, n.exponent ++ rest) := by
    apply take_while_rest_complete
    · intro c mem
      obtain mem | mem := List.mem_append.1 mem
      · simp [n.digits c mem]
      · obtain rfl | read := fraction_marks n.point c mem
        · rfl
        · simp [read]
    · intro c head
      cases exponent : n.exponent with
      | nil =>
        rw [exponent, List.nil_append] at head
        simp [(ends c head).1, (ends c head).2.1]
      | cons letter tail =>
        rw [exponent, List.cons_append, List.head?_cons] at head
        cases head
        obtain rfl | rfl := exponent_head n.scale c (by rw [exponent]; rfl) <;> decide
  have scaled : takeExponent (n.exponent ++ rest) = (n.exponent, rest) :=
    take_exponent_complete n.scale fun c head => ⟨(ends c head).1, (ends c head).2.2⟩
  have shape : n.body ++ rest = (n.whole ++ n.fraction) ++ (n.exponent ++ rest) := by
    simp [NumberParts.body]
  rw [shape]
  simp only [takeSignedNumber, run, scaled]
  simp [NumberParts.body]

theorem number_complete (n : NumberParts) {rest : List Char} (ends : n.EndsAt rest.head?) :
    takeNumber (n.body ++ rest) = (n.body, rest) := by
  have exponentEnds : ∀ c, (n.exponent ++ rest).head? = some c → c.isDigit = false ∧ c ≠ '.' := by
    intro c head
    cases exponent : n.exponent with
    | nil =>
      rw [exponent, List.nil_append] at head
      exact ⟨(ends c head).1, (ends c head).2.1⟩
    | cons letter tail =>
      rw [exponent, List.cons_append, List.head?_cons] at head
      cases head
      obtain rfl | rfl := exponent_head n.scale c (by rw [exponent]; rfl) <;> decide
  have run : takeWhileRest Char.isDigit (n.whole ++ (n.fraction ++ (n.exponent ++ rest))) =
      (n.whole, n.fraction ++ (n.exponent ++ rest)) := by
    apply take_while_rest_complete n.digits
    intro c head
    cases fraction : n.fraction with
    | nil =>
      rw [fraction, List.nil_append] at head
      exact (exponentEnds c head).1
    | cons dot digits =>
      rw [fraction, List.cons_append, List.head?_cons] at head
      cases head
      obtain rfl | rfl | rfl := fraction_head n.point n.scale c (by rw [fraction]; rfl) <;> decide
  have dotted := take_fraction_complete n.point exponentEnds
  have scaled : takeExponent (n.exponent ++ rest) = (n.exponent, rest) :=
    take_exponent_complete n.scale fun c head => ⟨(ends c head).1, (ends c head).2.2⟩
  obtain ⟨fraction, point, _, split, _⟩ := take_fraction_sound dotted
  rw [← List.append_cancel_right split] at point
  have shape : n.body ++ rest = n.whole ++ (n.fraction ++ (n.exponent ++ rest)) := by
    simp [NumberParts.body]
  rw [take_number_eq, shape]
  simp only [run, dotted, scaled]
  rw [← point]
  simp [NumberParts.body]

/-! Lexer -/

theorem literal_start_iff (out : List SpannedToken) :
    isLiteralStartSlot out = true ↔ LiteralMayStart (out.getLast?.map SpannedToken.token) := by
  unfold isLiteralStartSlot
  constructor
  · intro starts
    split at starts
    · rename_i last
      rw [last]
      exact .first
    · rename_i op last
      rw [last]
      exact .operator op
    · rename_i last
      rw [last]
      exact .opening
    · rename_i last
      rw [last]
      exact .separator
    · rename_i kw last
      rw [last]
      exact .keyword kw (of_decide_eq_true starts)
    · cases starts
  · intro may
    generalize out.getLast?.map SpannedToken.token = before at may
    cases may with
    | first => rfl
    | operator op => rfl
    | opening => rfl
    | separator => rfl
    | keyword kw listed => exact decide_eq_true listed

theorem word_sound {c : Char} {s word rest : List Char} (before : Option CheckToken)
    (first : c.isAlpha = true ∨ c = '_') (taken : takeWhileRest isAsciiWord (c :: s) = (word, rest)) :
    c :: s = word ++ rest ∧ Lexeme before (classifyWord word) word rest := by
  obtain ⟨split, inside, ends⟩ := take_while_rest_sound taken
  refine ⟨split, ?_⟩
  have opens : isAsciiWord c = true := by
    obtain letter | rfl := first
    · simp [isAsciiWord, Char.isAlphanum, letter]
    · decide
  obtain ⟨others, shape⟩ : ∃ others, word = c :: others := by
    simp only [takeWhileRest, List.takeWhile_cons, opens, ↓reduceIte, Prod.mk.injEq] at taken
    exact ⟨_, taken.1.symm⟩
  subst shape
  have others : ∀ d ∈ others, isAsciiWord d = true := fun d mem =>
    inside d (List.mem_cons_of_mem c mem)
  obtain ⟨name, kw, listed, same, written⟩ | ⟨free, same⟩ := (classify_word_iff _ _).1 rfl
  · rw [same]
    exact .keyword listed first others ends written
  · rw [same]
    exact .identifier first others ends free

theorem word_complete {c : Char} {word rest : List Char} (first : c.isAlpha = true ∨ c = '_')
    (others : ∀ d ∈ word, isAsciiWord d = true)
    (ends : ∀ d, rest.head? = some d → isAsciiWord d = false) :
    takeWhileRest isAsciiWord ((c :: word) ++ rest) = (c :: word, rest) := by
  apply take_while_rest_complete _ ends
  intro d mem
  cases mem with
  | head =>
    obtain letter | rfl := first
    · simp [isAsciiWord, Char.isAlphanum, letter]
    · decide
  | tail _ mem => exact others d mem

theorem next_token_sound {out : List SpannedToken} {s text rest : List Char} {token : CheckToken}
    (read : nextToken out s = some (token, text, rest)) (undotted : rest.head? ≠ some '.') :
    s = text ++ rest ∧ Lexeme (out.getLast?.map SpannedToken.token) token text rest := by
  cases s with
  | nil => cases read
  | cons c tail =>
    rw [nextToken] at read
    by_cases same : c = '('
    · rw [if_pos same] at read
      cases read
      exact ⟨rfl, same ▸ .opening rest⟩
    rw [if_neg same] at read
    by_cases same : c = ')'
    · rw [if_pos same] at read
      cases read
      exact ⟨rfl, same ▸ .closing rest⟩
    rw [if_neg same] at read
    by_cases same : c = ','
    · rw [if_pos same] at read
      cases read
      exact ⟨rfl, same ▸ .separator rest⟩
    rw [if_neg same] at read
    by_cases same : c = '\''
    · rw [if_pos same] at read
      obtain ⟨⟨body, unread⟩, quoted, shape⟩ := Option.map_eq_some_iff.1 read
      cases shape
      obtain ⟨content, shape, split, closed⟩ := take_quoted_sound quoted
      subst same shape split
      exact ⟨rfl, .string content closed⟩
    rw [if_neg same] at read
    by_cases marked : c = '<' ∨ c = '>' ∨ c = '=' ∨ c = '!'
    · rw [if_pos marked] at read
      obtain ⟨⟨op, written, unread⟩, taken, shape⟩ := Option.map_eq_some_iff.1 read
      cases shape
      obtain ⟨split, op, longest⟩ := take_op_sound taken
      exact ⟨split, .operator op longest⟩
    rw [if_neg marked] at read
    by_cases marked : c = '-' ∨ c = '+'
    · rw [if_pos marked] at read
      by_cases slot : isLiteralStartSlot out = true
      · rw [if_pos slot] at read
        cases taken : takeSignedNumber tail with
        | mk body unread =>
          simp only [taken] at read
          obtain ⟨number, parsed, shape⟩ := Option.map_eq_some_iff.1 read
          cases shape
          obtain ⟨split, n, written, same, sign, ends⟩ :=
            signed_number_sound marked taken parsed undotted
          rw [split, same, written]
          refine ⟨?_, .signed n sign ((literal_start_iff out).1 slot) ends⟩
          rw [← written]
          rfl
      · rw [if_neg slot] at read
        cases read
    rw [if_neg marked] at read
    by_cases digit : c.isDigit = true
    · rw [if_pos digit] at read
      cases taken : takeNumber (c :: tail) with
      | mk body unread =>
        simp only [taken] at read
        obtain ⟨number, parsed, shape⟩ := Option.map_eq_some_iff.1 read
        cases shape
        obtain ⟨split, n, written, same, plain, leading, ends⟩ :=
          number_sound digit taken parsed undotted
        rw [split, same, written]
        exact ⟨rfl, .unsigned n plain leading ends⟩
    rw [if_neg digit] at read
    by_cases first : c.isAlpha = true ∨ c = '_'
    · rw [if_pos first] at read
      cases taken : takeWhileRest isAsciiWord (c :: tail) with
      | mk word unread =>
        simp only [taken, Option.some.injEq, Prod.mk.injEq] at read
        obtain ⟨same, shape, left⟩ := read
        subst same shape left
        exact word_sound _ first taken
    · rw [if_neg first] at read
      cases read

theorem next_token_unmarked {out : List SpannedToken} {c : Char} {s : List Char}
    (apart : ∀ d ∈ ['(', ')', ',', '\'', '<', '>', '=', '!', '-', '+'], c ≠ d) :
    nextToken out (c :: s) =
      if c.isDigit then
        let (text, rest) := takeNumber (c :: s)
        (parseNumberToken text).map fun token => (token, text, rest)
      else if c.isAlpha ∨ c = '_' then
        let (word, rest) := takeWhileRest isAsciiWord (c :: s)
        some (classifyWord word, word, rest)
      else none := by
  simp only [List.forall_mem_cons, List.not_mem_nil, IsEmpty.forall_iff, implies_true,
    and_true] at apart
  simp only [nextToken, apart, or_self, ↓reduceIte]

theorem word_not_digit {c : Char} (first : c.isAlpha = true ∨ c = '_') : c.isDigit = false := by
  obtain letter | rfl := first
  · rw [Bool.eq_false_iff]
    intro digit
    delta Char.isAlpha Char.isUpper Char.isLower at letter
    simp only [Char.isDigit, Bool.or_eq_true, Bool.and_eq_true, decide_eq_true_eq, ge_iff_le,
      UInt32.le_iff_toNat_le] at letter digit
    have upper : ('A').val.toNat = 65 := rfl
    have lower : ('a').val.toNat = 97 := rfl
    have nine : ('9').val.toNat = 57 := rfl
    omega
  · decide

theorem next_token_number {out : List SpannedToken} {c : Char} {s text rest : List Char}
    {token : CheckToken} (digit : c.isDigit = true) (taken : takeNumber (c :: s) = (text, rest))
    (parsed : parseNumberToken text = some token) :
    nextToken out (c :: s) = some (token, text, rest) := by
  have marks : ∀ d ∈ ['(', ')', ',', '\'', '<', '>', '=', '!', '-', '+'], d.isDigit = false := by
    simp only [List.forall_mem_cons, List.not_mem_nil, false_implies, implies_true, and_true]
    decide
  have apart : ∀ d ∈ ['(', ')', ',', '\'', '<', '>', '=', '!', '-', '+'], c ≠ d := by
    intro d mark same
    rw [same, marks d mark] at digit
    cases digit
  rw [next_token_unmarked apart, if_pos digit, taken]
  simp only [parsed, Option.map_some]

theorem next_token_word {out : List SpannedToken} {c : Char} {s word rest : List Char}
    (first : c.isAlpha = true ∨ c = '_')
    (taken : takeWhileRest isAsciiWord (c :: s) = (word, rest)) :
    nextToken out (c :: s) = some (classifyWord word, word, rest) := by
  have marks : ∀ d ∈ ['(', ')', ',', '\'', '<', '>', '=', '!', '-', '+'],
      ¬ (d.isAlpha = true ∨ d = '_') := by
    simp only [List.forall_mem_cons, List.not_mem_nil, false_implies, implies_true, and_true]
    decide
  have apart : ∀ d ∈ ['(', ')', ',', '\'', '<', '>', '=', '!', '-', '+'], c ≠ d :=
    fun d mark same => marks d mark (same ▸ first)
  rw [next_token_unmarked apart, word_not_digit first, taken]
  simp only [Bool.false_eq_true, ↓reduceIte, if_pos first]

theorem next_token_signed {out : List SpannedToken} {c : Char} {s body rest : List Char}
    {token : CheckToken} (marked : c = '+' ∨ c = '-') (slot : isLiteralStartSlot out = true)
    (taken : takeSignedNumber s = (body, rest)) (parsed : parseNumberToken (c :: body) = some token) :
    nextToken out (c :: s) = some (token, c :: body, rest) := by
  obtain rfl | rfl := marked <;> simp [nextToken, slot, taken, parsed]

theorem next_token_complete {out : List SpannedToken} {text rest : List Char} {token : CheckToken}
    (lexeme : Lexeme (out.getLast?.map SpannedToken.token) token text rest) :
    nextToken out (text ++ rest) = some (token, text, rest) := by
  cases lexeme with
  | opening => rfl
  | closing => rfl
  | separator => rfl
  | string content closed =>
    have taken := take_quoted_complete content closed
    rw [quote_closing]
    simp [nextToken, taken]
  | operator written longest =>
    have taken := take_op_complete written longest
    cases written <;> simp_all [nextToken]
  | unsigned n plain leading ends =>
    have shape : n.text = n.body := by rw [NumberParts.text_eq, plain, List.nil_append]
    have taken := number_complete n ends
    have parsed := n.parsed_token
    obtain ⟨c, tail, split⟩ := List.exists_cons_of_ne_nil leading
    have digit : c.isDigit = true := n.digits c (by simp [split])
    have head : n.body ++ rest = c :: (tail ++ (n.fraction ++ n.exponent) ++ rest) := by
      simp [NumberParts.body, split]
    rw [shape] at parsed ⊢
    rw [head] at taken ⊢
    exact next_token_number digit taken parsed
  | signed n sign slot ends =>
    have taken := signed_number_complete n ends
    have parsed := n.parsed_token
    have starts := (literal_start_iff out).2 slot
    have marked := n.signed
    rw [NumberParts.text_eq] at parsed ⊢
    generalize n.sign = mark at sign parsed marked ⊢
    cases marked with
    | none => exact absurd rfl sign
    | plus => exact next_token_signed (.inl rfl) starts taken parsed
    | minus => exact next_token_signed (.inr rfl) starts taken parsed
  | keyword listed first others ends same =>
    rename_i kw name c word
    have taken := word_complete first others ends
    have token : classifyWord (c :: word) = .keyword kw :=
      (classify_word_iff _ _).2 (.inl ⟨name, kw, listed, rfl, same⟩)
    rw [← token]
    exact next_token_word first taken
  | identifier first others ends free =>
    rename_i c word
    have taken := word_complete first others ends
    have token : classifyWord (c :: word) = .ident (String.ofList (c :: word)) :=
      (classify_word_iff _ _).2 (.inr ⟨free, rfl⟩)
    rw [← token]
    exact next_token_word first taken

theorem blank_no_token {out : List SpannedToken} {c : Char} {s : List Char}
    (space : isAsciiWhitespace c = true) : nextToken out (c :: s) = none := by
  simp only [isAsciiWhitespace, decide_eq_true_eq] at space
  obtain rfl | rfl | rfl | rfl | rfl := space <;> simp [nextToken]

theorem lexeme_present {before : Option CheckToken} {token : CheckToken} {text rest : List Char}
    (lexeme : Lexeme before token text rest) : text ≠ [] := by
  have number : ∀ n : NumberParts, n.text ≠ [] := fun n none =>
    n.body_present (List.append_eq_nil_iff.1 none).2
  cases lexeme with
  | operator written longest => cases written <;> exact List.cons_ne_nil _ _
  | unsigned n => exact number n
  | signed n => exact number n
  | _ => exact List.cons_ne_nil _ _

theorem dot_no_tokens {fuel pos : Nat} {out : List SpannedToken} {s : List Char}
    (dotted : s.head? = some '.') : tokenizeFrom fuel pos out s = none := by
  obtain ⟨tail, split⟩ := List.head?_eq_some_iff.1 dotted
  subst split
  cases fuel with
  | zero => rfl
  | succ fuel => rfl

theorem last_token (out : List SpannedToken) (t : SpannedToken) :
    ((out ++ [t]).getLast?.map SpannedToken.token) = some t.token := by
  simp

theorem tokenize_sound {fuel pos : Nat} {out all : List SpannedToken} {s : List Char}
    (read : tokenizeFrom fuel pos out s = some all) :
    ∃ more, all = out ++ more ∧
      Lexes (out.getLast?.map SpannedToken.token) s (more.map SpannedToken.token) := by
  induction fuel generalizing pos out s with
  | zero =>
    cases s with
    | nil =>
      cases read
      exact ⟨[], (List.append_nil _).symm, .done _⟩
    | cons c rest => cases read
  | succ fuel ih =>
    cases s with
    | nil =>
      cases read
      exact ⟨[], (List.append_nil _).symm, .done _⟩
    | cons c rest =>
      unfold tokenizeFrom at read
      split at read
      · rename_i space
        obtain ⟨more, split, lexes⟩ := ih read
        exact ⟨more, split, .blank space lexes⟩
      · split at read
        · cases read
        · rename_i token text after next
          have undotted : after.head? ≠ some '.' := by
            intro dotted
            rw [dot_no_tokens dotted] at read
            cases read
          obtain ⟨split, lexeme⟩ := next_token_sound next undotted
          obtain ⟨more, splitAll, lexes⟩ := ih read
          rw [last_token] at lexes
          refine ⟨⟨token, pos, pos + byteLength text⟩ :: more, by simp [splitAll], ?_⟩
          rw [split]
          exact .token lexeme lexes

theorem tokenize_complete {before : Option CheckToken} {s : List Char} {tokens : List CheckToken}
    (lexes : Lexes before s tokens) {fuel pos : Nat} {out : List SpannedToken}
    (last : out.getLast?.map SpannedToken.token = before) (enough : s.length ≤ fuel) :
    ∃ more, tokenizeFrom fuel pos out s = some (out ++ more) ∧
      more.map SpannedToken.token = tokens := by
  induction lexes generalizing fuel pos out with
  | done before =>
    refine ⟨[], ?_, rfl⟩
    rw [List.append_nil]
    cases fuel <;> rfl
  | blank space others ih =>
    cases fuel with
    | zero => exact absurd enough (by simp)
    | succ fuel =>
      obtain ⟨more, read, same⟩ := ih last (Nat.le_of_succ_le_succ enough)
      refine ⟨more, ?_, same⟩
      simp only [tokenizeFrom, space, ↓reduceIte]
      exact read
  | token lexeme others ih =>
    rename_i before token text rest tokens
    subst last
    obtain ⟨c, tail, split⟩ := List.exists_cons_of_ne_nil (lexeme_present lexeme)
    have next := next_token_complete lexeme
    cases fuel with
    | zero =>
      rw [split] at enough
      exact absurd enough (by simp)
    | succ fuel =>
      have shorter : rest.length ≤ fuel := by
        rw [split] at enough
        simp only [List.cons_append, List.length_cons, List.length_append] at enough
        omega
      let spanned : SpannedToken := ⟨token, pos, pos + byteLength text⟩
      obtain ⟨more, read, same⟩ : ∃ more,
          tokenizeFrom fuel (pos + byteLength text) (out ++ [spanned]) rest =
            some (out ++ [spanned] ++ more) ∧ more.map SpannedToken.token = tokens :=
        ih (last_token out spanned) shorter
      refine ⟨spanned :: more, ?_, by rw [List.map_cons, same]⟩
      rw [split, List.cons_append] at next ⊢
      have solid : ¬ isAsciiWhitespace c = true := by
        intro space
        rw [blank_no_token space] at next
        cases next
      unfold tokenizeFrom
      rw [if_neg solid, next, ← split]
      simpa using read

/-- The lexer reads exactly the texts of tokens. -/
theorem tokenize_iff (s : List Char) (tokens : List CheckToken) :
    (tokenizeSpanned s).map (·.map SpannedToken.token) = some tokens ↔ Lexes none s tokens := by
  unfold tokenizeSpanned
  constructor
  · intro read
    obtain ⟨all, lexed, same⟩ := Option.map_eq_some_iff.1 read
    obtain ⟨more, split, lexes⟩ := tokenize_sound lexed
    rw [List.nil_append] at split
    rw [← same, split]
    exact lexes
  · intro lexes
    have last : ([] : List SpannedToken).getLast?.map SpannedToken.token = none := rfl
    obtain ⟨more, read, same⟩ := tokenize_complete lexes last (Nat.le_refl _)
    rw [read, Option.map_some, List.nil_append, same]

end Vespertide
