import Vespertide.Support.Text

/-!
The recogniser of CHECK expressions. Anything outside its grammar is no
expression at all; spans are byte offsets into the text.
-/
namespace Vespertide

inductive CheckOp where
  | eq | ne | lt | le | gt | ge
  deriving DecidableEq, Repr

/-- Strings keep their quotes; a float is the text it was written as. -/
inductive CheckLiteral where
  | integer (n : Int)
  | float (text : String)
  | string (quoted : String)
  | bool (b : Bool)
  | null
  deriving DecidableEq, Repr

inductive CheckExpr where
  | compare (column : String) (op : CheckOp) (value : CheckLiteral)
  | in (column : String) (values : List CheckLiteral) (negated : Bool)
  | between (column : String) (low high : CheckLiteral) (negated : Bool)
  | isNull (column : String) (negated : Bool)
  | and (parts : List CheckExpr)
  | or (parts : List CheckExpr)
  | not (inner : CheckExpr)
  | unparseable

inductive CheckKeyword where
  | and | or | not | in | between | is | null | true | false
  deriving DecidableEq, Repr

inductive CheckToken where
  | ident (name : String)
  | integer (n : Int)
  | float (text : String)
  | quotedString (quoted : String)
  | keyword (kw : CheckKeyword)
  | op (op : CheckOp)
  | lparen
  | rparen
  | comma
  deriving DecidableEq, Repr

structure SpannedToken where
  token : CheckToken
  start : Nat
  stop : Nat
  deriving DecidableEq, Repr

/-! Lexer -/

def isAsciiWhitespace (c : Char) : Bool :=
  c = ' ' ∨ c = '\t' ∨ c = '\n' ∨ c = '\r' ∨ c = '\x0c'

def isAsciiWord (c : Char) : Bool := c.isAlphanum ∨ c = '_'

/-- The rest of a quoted string, its closing quote included; a doubled quote
    does not close it. -/
def takeQuoted : List Char → Option (List Char × List Char)
  | [] => none
  | '\'' :: '\'' :: rest => (takeQuoted rest).map fun (s, rest) => ('\'' :: '\'' :: s, rest)
  | '\'' :: rest => some (['\''], rest)
  | c :: rest => (takeQuoted rest).map fun (s, rest) => (c :: s, rest)

def takeWhileRest (p : Char → Bool) (s : List Char) : List Char × List Char :=
  (s.takeWhile p, s.dropWhile p)

def takeSign : List Char → List Char × List Char
  | c :: rest => if c = '+' ∨ c = '-' then ([c], rest) else ([], c :: rest)
  | [] => ([], [])

def takeExponent (s : List Char) : List Char × List Char :=
  match s with
  | [] => ([], [])
  | c :: rest =>
      if c = 'e' ∨ c = 'E' then
        let (sign, rest) := takeSign rest
        let (digits, rest) := takeWhileRest Char.isDigit rest
        (c :: sign ++ digits, rest)
      else ([], s)

/-- A sign was read: digits and dots in any order follow it. -/
def takeSignedNumber (s : List Char) : List Char × List Char :=
  let (body, rest) := takeWhileRest (fun c => c.isDigit || c = '.') s
  let (exponent, rest) := takeExponent rest
  (body ++ exponent, rest)

def takeNumber (s : List Char) : List Char × List Char :=
  let (whole, rest) := takeWhileRest Char.isDigit s
  let (fraction, rest) :=
    match rest with
    | '.' :: rest =>
        let (digits, rest) := takeWhileRest Char.isDigit rest
        ('.' :: digits, rest)
    | rest => ([], rest)
  let (exponent, rest) := takeExponent rest
  (whole ++ fraction ++ exponent, rest)

def digitsValue (digits : List Char) : Nat :=
  digits.foldl (fun n c => n * 10 + (c.toNat - '0'.toNat)) 0

def parseI64 (raw : List Char) : Option Int :=
  let (sign, digits) := takeSign raw
  if digits = [] ∨ ¬ digits.all Char.isDigit then none
  else
    let n : Int := digitsValue digits
    let value := if sign = ['-'] then -n else n
    if -9223372036854775808 ≤ value ∧ value ≤ 9223372036854775807 then some value else none

def isF64 (raw : List Char) : Bool :=
  let (_, body) := takeSign raw
  let (whole, rest) := takeWhileRest Char.isDigit body
  let (fraction, rest) :=
    match rest with
    | '.' :: rest => takeWhileRest Char.isDigit rest
    | rest => ([], rest)
  let exponentOk :=
    match rest with
    | [] => true
    | c :: rest =>
        let (_, digits) := takeSign rest
        (c = 'e' ∨ c = 'E') ∧ digits ≠ [] ∧ digits.all Char.isDigit
  (whole ≠ [] ∨ fraction ≠ []) ∧ exponentOk

def parseNumberToken (raw : List Char) : Option CheckToken :=
  match parseI64 raw with
  | some n => some (.integer n)
  | none => if isF64 raw then some (.float (String.ofList raw)) else none

def checkKeywords : List (String × CheckKeyword) :=
  [("AND", .and), ("OR", .or), ("NOT", .not), ("IN", .in), ("BETWEEN", .between), ("IS", .is),
    ("NULL", .null), ("TRUE", .true), ("FALSE", .false)]

def classifyWord (word : List Char) : CheckToken :=
  match checkKeywords.find? fun (text, _) => Text.eqIgnoreAsciiCase word text.toList with
  | some (_, kw) => .keyword kw
  | none => .ident (String.ofList word)

/-- A sign starts a number only where a literal may stand. -/
def isLiteralStartSlot (out : List SpannedToken) : Bool :=
  match out.getLast?.map SpannedToken.token with
  | none => true
  | some (.op _) => true
  | some .lparen => true
  | some .comma => true
  | some (.keyword kw) => kw ∈ [.and, .or, .not, .between, .in, .is]
  | some _ => false

def takeOp : List Char → Option (CheckOp × List Char × List Char)
  | '<' :: '=' :: rest => some (.le, ['<', '='], rest)
  | '>' :: '=' :: rest => some (.ge, ['>', '='], rest)
  | '<' :: '>' :: rest => some (.ne, ['<', '>'], rest)
  | '!' :: '=' :: rest => some (.ne, ['!', '='], rest)
  | '<' :: rest => some (.lt, ['<'], rest)
  | '>' :: rest => some (.gt, ['>'], rest)
  | '=' :: rest => some (.eq, ['='], rest)
  | _ => none

/-- The next token of a text that does not start with whitespace, the
    characters it takes, and what follows. -/
def nextToken (out : List SpannedToken) (s : List Char) :
    Option (CheckToken × List Char × List Char) :=
  match s with
  | [] => none
  | c :: rest =>
      if c = '(' then some (.lparen, [c], rest)
      else if c = ')' then some (.rparen, [c], rest)
      else if c = ',' then some (.comma, [c], rest)
      else if c = '\'' then
        (takeQuoted rest).map fun (body, rest) =>
          (.quotedString (String.ofList (c :: body)), c :: body, rest)
      else if c = '<' ∨ c = '>' ∨ c = '=' ∨ c = '!' then
        (takeOp s).map fun (op, text, rest) => (.op op, text, rest)
      else if c = '-' ∨ c = '+' then
        if isLiteralStartSlot out then
          let (body, rest) := takeSignedNumber rest
          (parseNumberToken (c :: body)).map fun token => (token, c :: body, rest)
        else none
      else if c.isDigit then
        let (text, rest) := takeNumber s
        (parseNumberToken text).map fun token => (token, text, rest)
      else if c.isAlpha ∨ c = '_' then
        let (word, rest) := takeWhileRest isAsciiWord s
        some (classifyWord word, word, rest)
      else none

def byteLength (s : List Char) : Nat := s.foldl (fun n c => n + c.utf8Size) 0

/-- Every step takes a character, so the length of the text is fuel enough. -/
def tokenizeFrom : Nat → Nat → List SpannedToken → List Char → Option (List SpannedToken)
  | _, _, out, [] => some out
  | 0, _, _, _ :: _ => none
  | fuel + 1, pos, out, c :: rest =>
      if isAsciiWhitespace c then tokenizeFrom fuel (pos + 1) out rest
      else
        match nextToken out (c :: rest) with
        | none => none
        | some (token, text, rest) =>
            let stop := pos + byteLength text
            tokenizeFrom fuel stop (out ++ [⟨token, pos, stop⟩]) rest

def tokenizeSpanned (input : List Char) : Option (List SpannedToken) :=
  tokenizeFrom input.length 0 [] input

/-! Parser: a tree and the tokens after it, or nothing where the source folds
    to `Unparseable` -/

def eatKeyword (kw : CheckKeyword) : List CheckToken → Option (List CheckToken)
  | .keyword k :: rest => if k = kw then some rest else none
  | _ => none

def tryTakeLiteral : List CheckToken → Option (CheckLiteral × List CheckToken)
  | .integer n :: rest => some (.integer n, rest)
  | .float f :: rest => some (.float f, rest)
  | .quotedString s :: rest => some (.string s, rest)
  | .keyword .true :: rest => some (.bool true, rest)
  | .keyword .false :: rest => some (.bool false, rest)
  | .keyword .null :: rest => some (.null, rest)
  | _ => none

def parseInValues : Nat → List CheckToken → Option (List CheckLiteral × List CheckToken)
  | 0, _ => none
  | fuel + 1, tokens =>
      match tryTakeLiteral tokens with
      | none => none
      | some (value, .comma :: rest) =>
          (parseInValues fuel rest).map fun (values, rest) => (value :: values, rest)
      | some (value, .rparen :: rest) => some ([value], rest)
      | some _ => none

def parsePredicate (column : String) (tokens : List CheckToken) : Option (CheckExpr × List CheckToken) :=
  let negated := (eatKeyword .not tokens).isSome
  let tokens := (eatKeyword .not tokens).getD tokens
  match tokens with
  | .op op :: rest =>
      if negated then none
      else (tryTakeLiteral rest).map fun (value, rest) => (.compare column op value, rest)
  | .keyword .in :: .lparen :: rest =>
      (parseInValues rest.length rest).map fun (values, rest) => (.in column values negated, rest)
  | .keyword .between :: rest =>
      match tryTakeLiteral rest with
      | some (low, .keyword .and :: rest) =>
          (tryTakeLiteral rest).map fun (high, rest) => (.between column low high negated, rest)
      | _ => none
  | .keyword .is :: rest =>
      if negated then none
      else
        let isNot := (eatKeyword .not rest).isSome
        let rest := (eatKeyword .not rest).getD rest
        (eatKeyword .null rest).map fun rest => (.isNull column isNot, rest)
  | _ => none

section Levels
variable (atom : List CheckToken → Option (CheckExpr × List CheckToken))

def parseNot (tokens : List CheckToken) : Option (CheckExpr × List CheckToken) :=
  match eatKeyword .not tokens with
  | some rest => (atom rest).map fun (inner, rest) => (.not inner, rest)
  | none => atom tokens

/-- The operands after the first one; each takes a token at least. -/
def parseOperands (kw : CheckKeyword) (operand : List CheckToken → Option (CheckExpr × List CheckToken)) :
    Nat → List CheckToken → Option (List CheckExpr × List CheckToken)
  | 0, tokens => some ([], tokens)
  | fuel + 1, tokens =>
      match eatKeyword kw tokens with
      | none => some ([], tokens)
      | some rest =>
          match operand rest with
          | none => none
          | some (next, rest) =>
              (parseOperands kw operand fuel rest).map fun (parts, rest) => (next :: parts, rest)

def parseJoined (kw : CheckKeyword) (join : List CheckExpr → CheckExpr)
    (operand : List CheckToken → Option (CheckExpr × List CheckToken)) (tokens : List CheckToken) :
    Option (CheckExpr × List CheckToken) :=
  match operand tokens with
  | none => none
  | some (first, rest) =>
      (parseOperands kw operand rest.length rest).map fun (parts, rest) =>
        (if parts.isEmpty then first else join (first :: parts), rest)

def parseOr (tokens : List CheckToken) : Option (CheckExpr × List CheckToken) :=
  parseJoined .or .or (parseJoined .and .and (parseNot atom)) tokens

end Levels

def maxCheckExprDepth : Nat := 64

/-- `nesting` more brackets may be opened. -/
def parseAtom : Nat → List CheckToken → Option (CheckExpr × List CheckToken)
  | 0, tokens =>
      match tokens with
      | .ident column :: rest => parsePredicate column rest
      | _ => none
  | nesting + 1, tokens =>
      match tokens with
      | .lparen :: rest =>
          match parseOr (parseAtom nesting) rest with
          | some (inner, .rparen :: rest) => some (inner, rest)
          | _ => none
      | .ident column :: rest => parsePredicate column rest
      | _ => none

def parseCheckExpr (expr : String) : CheckExpr :=
  match tokenizeSpanned (Text.trim expr.toList) with
  | none => .unparseable
  | some tokens =>
      match parseOr (parseAtom maxCheckExprDepth) (tokens.map (·.token)) with
      | some (parsed, []) => parsed
      | _ => .unparseable

/-! Single-column checks -/

inductive SimpleColumnCheck where
  | op (op : CheckOp) (value : CheckLiteral)
  | in (values : List CheckLiteral)
  deriving DecidableEq, Repr

def extractSimpleColumnCheck (expr : CheckExpr) (column : String) : Option SimpleColumnCheck :=
  match expr with
  | .compare c op value => if c = column then some (.op op value) else none
  | .in c values false => if c = column then some (.in values) else none
  | _ => none

def matchesForColumn (expr column : String) : Bool :=
  (extractSimpleColumnCheck (parseCheckExpr expr) column).isSome

example : matchesForColumn "price > 0" "price" = true := by decide
example : matchesForColumn "price > 0 AND (stock >= -1)" "price" = false := by decide

end Vespertide
