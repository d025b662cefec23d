import Vespertide.ActionQueries

/-!
The text a value is sent as. A default is one literal or one call and is
rewritten for its backend; a `fill_with` is an expression of the user and is
rewritten only where it is no more than that.
-/
namespace Vespertide
open Text

def uuidFunctionSpellings : List String :=
  ["gen_random_uuid()", "uuid()", "lower(hex(randomblob(16)))"]

def timestampFunctionSpellings : List String :=
  ["current_timestamp()", "now()", "current_timestamp", "getdate()"]

def compositeSqlKeywords : List String :=
  ["case", "when", "then", "else", "end", "select", "from", "where", "union", "join", "between"]

def matchesAnySpelling (value : List Char) (spellings : List String) : Bool :=
  spellings.any (eqIgnoreAsciiCase value ·.toList)

/-! Casts -/

structure CastScan where
  inQuote : Bool
  depth : Nat
  pendingColon : Option Nat
  last : Option Nat

def CastScan.next (s : CastScan) (index : Nat) (c : Char) : CastScan :=
  if s.inQuote then { s with inQuote := decide (c ≠ '\''), pendingColon := none }
  else
    match c with
    | '\'' => { s with inQuote := true, pendingColon := none }
    | '(' => { s with depth := s.depth + 1, pendingColon := none }
    | ')' => { s with depth := s.depth - 1, pendingColon := none }
    | ':' =>
        match s.pendingColon with
        | some start =>
            { s with pendingColon := none, last := if s.depth = 0 then some start else s.last }
        | none => { s with pendingColon := some index }
    | _ => { s with pendingColon := none }

def scanCasts : CastScan → Nat → List Char → CastScan
  | s, _, [] => s
  | s, index, c :: rest => scanCasts (s.next index c) (index + 1) rest

/-- The last `::` outside quotes and brackets. -/
def findLastTopLevelCast (expr : List Char) : Option Nat :=
  let s := scanCasts ⟨false, 0, none, none⟩ 0 expr
  if s.inQuote then none else s.last

theorem scan_before {s : CastScan} {index : Nat} (cs : List Char)
    (pending : ∀ i, s.pendingColon = some i → i < index)
    (last : ∀ i, s.last = some i → i < index) :
    ∀ i, (scanCasts s index cs).last = some i → i < index + cs.length := by
  induction cs generalizing s index with
  | nil => simpa [scanCasts] using last
  | cons c rest ih =>
    intro i found
    have later := @ih (s.next index c) (index + 1) ?_ ?_ i found
    · simp only [List.length_cons]
      omega
    · intro j held
      unfold CastScan.next at held
      split at held
      · cases held
      · split at held <;> try cases held
        split at held <;> cases held
        omega
    · intro j held
      unfold CastScan.next at held
      split at held
      · exact Nat.lt_succ_of_lt (last j held)
      · split at held <;> try exact Nat.lt_succ_of_lt (last j held)
        split at held
        · rename_i start first
          simp only at held
          split at held
          · obtain rfl := Option.some.inj held
            exact Nat.lt_succ_of_lt (pending _ first)
          · exact Nat.lt_succ_of_lt (last j held)
        · exact Nat.lt_succ_of_lt (last j held)

theorem trim_length (s : List Char) : (trim s).length ≤ s.length := by
  have front := (List.dropWhile_sublist isWhitespace (l := s)).length_le
  have back := (List.dropWhile_sublist isWhitespace
    (l := (s.dropWhile isWhitespace).reverse)).length_le
  simp only [trim, List.length_reverse] at back ⊢
  omega

section Conversion
variable (lowercase : List Char → List Char)

/-- Only the name of the type is put in lower case. -/
def parsePgTypeCast (expr : List Char) : Option (List Char × List Char) :=
  let trimmed := trim expr
  (findLastTopLevelCast trimmed).bind fun split =>
    let value := trim (trimmed.take split)
    let castType := lowercase (trim (trimmed.drop (split + 2)))
    if value = [] ∨ castType = [] then none else some (value, castType)

theorem parse_shorter {expr value castType : List Char}
    (parsed : parsePgTypeCast lowercase expr = some (value, castType)) :
    value.length < expr.length := by
  obtain ⟨split, found, rest⟩ := Option.bind_eq_some_iff.mp parsed
  dsimp only [findLastTopLevelCast] at found rest
  split at found
  · cases found
  · have before := scan_before (trim expr) (by simp) (by simp) split found
    split at rest
    · cases rest
    · simp only [Option.some.injEq, Prod.mk.injEq] at rest
      have cut := trim_length ((trim expr).take split)
      have whole := trim_length expr
      rw [rest.1, List.length_take] at cut
      omega

def pgTypeToMysqlCast (pgType : String) : String :=
  if pgType ∈ ["json", "jsonb"] then "JSON"
  else if pgType ∈ ["integer", "int", "int4", "smallint", "int2", "bigint", "int8"] then "SIGNED"
  else if pgType ∈ ["real", "float4", "double precision", "float8", "numeric", "decimal"] then
    "DECIMAL"
  else if pgType ∈ ["boolean", "bool"] then "UNSIGNED"
  else if pgType = "date" then "DATE"
  else if pgType = "time" then "TIME"
  else if pgType ∈ ["timestamp", "timestamptz", "timestamp with time zone",
    "timestamp without time zone"] then "DATETIME"
  else if pgType = "bytea" then "BINARY"
  else "CHAR"

def convertTypeCast (value castType : String) : DatabaseBackend → String
  | .postgres => value ++ "::" ++ castType
  | .mySql => "CAST(" ++ value ++ " AS " ++ pgTypeToMysqlCast castType ++ ")"
  | .sqlite => value

def convertCastChain (value castType : List Char) (backend : DatabaseBackend) : String :=
  let inner :=
    match _ : parsePgTypeCast lowercase value with
    | some (innerValue, innerCast) => convertCastChain innerValue innerCast backend
    | none => String.ofList value
  convertTypeCast inner (String.ofList castType) backend
termination_by value.length
decreasing_by exact parse_shorter lowercase (by assumption)

def convertDefaultForBackend (default : String) (backend : DatabaseBackend) : String :=
  if matchesAnySpelling default.toList uuidFunctionSpellings then
    match backend with
    | .postgres => "gen_random_uuid()"
    | .mySql => "(UUID())"
    | .sqlite => "lower(hex(randomblob(16)))"
  else if matchesAnySpelling default.toList timestampFunctionSpellings then "CURRENT_TIMESTAMP"
  else
    match parsePgTypeCast lowercase default.toList with
    | some (value, castType) => convertCastChain lowercase value castType backend
    | none => default

/-! Fill values -/

/-- A pair of quotes closes a literal and opens it again. -/
def quotedThroughout : Bool → List Char → Bool
  | inQuote, [] => !inQuote
  | inQuote, c :: rest =>
      if c = '\'' then quotedThroughout (!inQuote) rest
      else if inQuote then quotedThroughout inQuote rest
      else false

def isOneCompleteQuotedLiteral (value : List Char) : Bool := quotedThroughout false value

def isSingleSqlAtom (value : List Char) : Bool :=
  match value with
  | [] => false
  | '\'' :: _ => isOneCompleteQuotedLiteral value
  | _ => !(value.any fun c => isWhitespace c || decide (c ∈ ['(', ')', ',', ';', '\'', '"']))

def containsCompositeKeyword (value : List Char) : Bool :=
  (value.splitOnP fun c => !c.isAlphanum && c ≠ '_').any
    (matchesAnySpelling · compositeSqlKeywords)

def isSimpleLiteralFill (fill : List Char) : Bool :=
  let trimmed := trim fill
  if matchesAnySpelling trimmed uuidFunctionSpellings ||
      matchesAnySpelling trimmed timestampFunctionSpellings then true
  else if containsCompositeKeyword trimmed then false
  else
    isSingleSqlAtom (match findLastTopLevelCast trimmed with
      | some split => trim (trimmed.take split)
      | none => trimmed)

def convertFillWithForBackend (fill : String) (backend : DatabaseBackend) : String :=
  if backend = .postgres ∨ !isSimpleLiteralFill fill.toList then fill
  else convertDefaultForBackend lowercase fill backend

/-! The text of a column -/

def DefaultValue.isString : DefaultValue → Bool
  | .string _ => true
  | _ => false

/-- SQLite takes a call for a default in brackets only. -/
def SeaColumnDef.defaultText (backend : DatabaseBackend) (column : SeaColumnDef) : Option String :=
  column.default.map fun default =>
    let converted := convertDefaultForBackend lowercase default.toSql backend
    let quoted :=
      if column.type.isEnum ∧ default.isString ∧ needsQuoting converted then
        "'" ++ converted ++ "'"
      else converted
    if backend = .sqlite ∧ '(' ∈ quoted.toList ∧ quoted.toList.head? ≠ some '(' then
      "(" ++ quoted ++ ")"
    else quoted

/-- What a copy selects for the new column; `none` is `NULL`. -/
def FillValue.text (backend : DatabaseBackend) (type : ColumnType) : FillValue → Option String
  | .fillWith value =>
      some (normalizeEnumDefault type (convertFillWithForBackend lowercase value backend))
  | .default value =>
      some (normalizeEnumDefault type (convertDefaultForBackend lowercase value.toSql backend))
  | .null => none

end Conversion

end Vespertide
