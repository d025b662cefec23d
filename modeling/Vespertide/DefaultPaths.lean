import Mathlib
import Vespertide.ColumnEdits
import Vespertide.EnumLiteral
import Vespertide.FillText

/-!
The default of a column as it is rendered when the column is made and when the
default is set afterwards. PostgreSQL sends the new text as it stands, without
the conversion that every other path runs it through.
-/
namespace Vespertide
open Text

/-! The statements of a change -/

section Statements
variable (lowercase : List Char → List Char) (backend : DatabaseBackend) (table column : String)

def statementDefault : BuiltQuery → Option String
  | .alter sql =>
      (after (buildPgAlterColumnSql table column "SET DEFAULT ").toList sql.toList).map String.ofList
  | .modifyColumn _ sea _ => sea.defaultText lowercase backend
  | .createTable stmt =>
      (stmt.columns.find? (·.name = column)).bind (·.defaultText lowercase backend)
  | _ => none

def changedDefault (queries : List BuiltQuery) : Option String :=
  queries.findSome? (statementDefault lowercase backend table column)

def createdDefault (c : ColumnDef) : Option String :=
  (buildSeaColumnDef c).defaultText lowercase backend

end Statements

section Texts
variable (lowercase : List Char → List Char)

/-- What is cast, and the types of its casts, as they are read. -/
def castPieces (expr : List Char) : List String :=
  match _ : parsePgTypeCast lowercase expr with
  | some (value, castType) => castPieces value ++ [String.ofList castType]
  | none => [String.ofList expr]
termination_by expr.length
decreasing_by exact parse_shorter lowercase (by assumption)

/-- A text in the spelling that PostgreSQL is sent: the names of the functions,
    and casts in lower case without white space. -/
structure Spelled (text : String) : Prop where
  uuid : matchesAnySpelling text.toList uuidFunctionSpellings → text = "gen_random_uuid()"
  timestamp : matchesAnySpelling text.toList timestampFunctionSpellings →
    text = "CURRENT_TIMESTAMP"
  casts : "::".intercalate (castPieces lowercase text.toList) = text

end Texts

def PrintedFloat (text : String) : Prop :=
  text ∈ ["NaN", "inf", "-inf"] ∨ ∀ c ∈ text.toList, c.isDigit ∨ c = '-' ∨ c = '.'

/-! Casts -/

section Casts
variable {lowercase : List Char → List Char}

theorem cast_pieces_none {expr : List Char} (plain : parsePgTypeCast lowercase expr = none) :
    castPieces lowercase expr = [String.ofList expr] := by
  rw [castPieces]
  split
  · rename_i parsed
    simp [plain] at parsed
  · rfl

theorem cast_pieces_some {expr value castType : List Char}
    (parsed : parsePgTypeCast lowercase expr = some (value, castType)) :
    castPieces lowercase expr = castPieces lowercase value ++ [String.ofList castType] := by
  rw [castPieces]
  split
  · rename_i parsed'
    rw [parsed] at parsed'
    obtain ⟨rfl, rfl⟩ := Prod.mk.inj (Option.some.inj parsed')
    rfl
  · rename_i plain
    simp [plain] at parsed

theorem cast_pieces_nonempty (expr : List Char) : castPieces lowercase expr ≠ [] := by
  cases parsed : parsePgTypeCast lowercase expr with
  | none => simp [cast_pieces_none parsed]
  | some p =>
    obtain ⟨value, castType⟩ := p
    simp [cast_pieces_some parsed]

theorem join_pieces (value castType : List Char) :
    "::".intercalate (castPieces lowercase value ++ [String.ofList castType]) =
      "::".intercalate (castPieces lowercase value) ++ "::" ++ String.ofList castType := by
  rw [String.intercalate_append_of_ne_nil (cast_pieces_nonempty value) (by simp)]
  simp

theorem convert_cast_chain_eq (value castType : List Char) :
    convertCastChain lowercase value castType .postgres =
      "::".intercalate (castPieces lowercase value ++ [String.ofList castType]) := by
  induction length : value.length using Nat.strongRecOn generalizing value castType with
  | ind n ih =>
    rw [convertCastChain, join_pieces]
    split
    · rename_i inner innerCast parsed
      have shorter := length ▸ parse_shorter lowercase parsed
      simp only [convertTypeCast, ih _ shorter inner innerCast rfl, cast_pieces_some parsed]
    · rename_i plain
      simp [convertTypeCast, cast_pieces_none plain]

theorem convert_postgres_eq {text : String}
    (uuid : matchesAnySpelling text.toList uuidFunctionSpellings = false)
    (timestamp : matchesAnySpelling text.toList timestampFunctionSpellings = false) :
    convertDefaultForBackend lowercase text .postgres =
      "::".intercalate (castPieces lowercase text.toList) := by
  simp only [convertDefaultForBackend, uuid, timestamp, Bool.false_eq_true, ↓reduceIte]
  split
  · rename_i value castType parsed
    rw [convert_cast_chain_eq, cast_pieces_some parsed]
  · rename_i plain
    simp [cast_pieces_none plain]

theorem convert_postgres_iff (text : String) :
    convertDefaultForBackend lowercase text .postgres = text ↔ Spelled lowercase text := by
  have single {name : String} (plain : parsePgTypeCast lowercase name.toList = none) :
      "::".intercalate (castPieces lowercase name.toList) = name := by
    simp [cast_pieces_none plain]
  constructor
  · intro kept
    by_cases uuid : matchesAnySpelling text.toList uuidFunctionSpellings = true
    · simp only [convertDefaultForBackend, uuid, ↓reduceIte] at kept
      subst kept
      exact ⟨fun _ => rfl, fun other => absurd other (by decide), single rfl⟩
    · by_cases timestamp : matchesAnySpelling text.toList timestampFunctionSpellings = true
      · simp only [convertDefaultForBackend, uuid, timestamp, Bool.false_eq_true, ↓reduceIte]
          at kept
        subst kept
        exact ⟨fun other => absurd other (by decide), fun _ => rfl, single rfl⟩
      · rw [convert_postgres_eq (Bool.eq_false_iff.mpr uuid) (Bool.eq_false_iff.mpr timestamp)]
          at kept
        exact ⟨fun named => absurd named uuid, fun named => absurd named timestamp, kept⟩
  · intro spelled
    by_cases uuid : matchesAnySpelling text.toList uuidFunctionSpellings = true
    · rw [spelled.uuid uuid]
      rfl
    · by_cases timestamp : matchesAnySpelling text.toList timestampFunctionSpellings = true
      · rw [spelled.timestamp timestamp]
        rfl
      · rw [convert_postgres_eq (Bool.eq_false_iff.mpr uuid) (Bool.eq_false_iff.mpr timestamp)]
        exact spelled.casts

theorem parsed_head {expr value castType : List Char} (trimmed : trim expr = expr)
    (parsed : parsePgTypeCast lowercase expr = some (value, castType)) :
    value ≠ [] ∧ trim value = value ∧ value.head? = expr.head? := by
  obtain ⟨split, _, read⟩ := Option.bind_eq_some_iff.mp parsed
  simp only [trimmed, Option.ite_none_left_eq_some, Option.some.injEq, Prod.mk.injEq, not_or]
    at read
  obtain ⟨⟨nonempty, _⟩, rfl, _⟩ := read
  refine ⟨nonempty, trim_trim _, ?_⟩
  cases expr with
  | nil => simp [trim] at nonempty
  | cons c rest =>
    cases split with
    | zero => simp [trim] at nonempty
    | succ split =>
      have visible := (trim_eq_self_iff.mp trimmed).1 c rfl
      exact trim_head (by simp) visible

/-- Reading the casts of a trimmed text keeps its first character. -/
theorem pieces_head (lowercase : List Char → List Char) {expr : List Char}
    (nonempty : expr ≠ []) (trimmed : trim expr = expr) :
    ("::".intercalate (castPieces lowercase expr)).toList.head? = expr.head? := by
  induction length : expr.length using Nat.strongRecOn generalizing expr with
  | ind n ih =>
    cases parsed : parsePgTypeCast lowercase expr with
    | none => simp [cast_pieces_none parsed]
    | some p =>
      obtain ⟨value, castType⟩ := p
      obtain ⟨present, own, head⟩ := parsed_head trimmed parsed
      have kept := ih _ (length ▸ parse_shorter lowercase parsed) present own rfl
      rw [cast_pieces_some parsed, join_pieces, String.toList_append, String.toList_append,
        List.append_assoc, List.head?_append, kept, head]
      cases expr with
      | nil => exact absurd rfl nonempty
      | cons c rest => rfl

end Casts

/-! Quotes -/

def enumText (text : String) : String := if PlainWord text then "'" ++ text ++ "'" else text

theorem spelling_unquoted {text : List Char} {spellings : List String}
    (named : matchesAnySpelling text spellings = true)
    (unquoted : ∀ s ∈ spellings, '\'' ∉ s.toList.map Char.toUpper) : '\'' ∉ text := by
  intro quoted
  obtain ⟨s, mem, same⟩ := List.any_eq_true.mp named
  simp only [eqIgnoreAsciiCase, decide_eq_true_eq] at same
  exact unquoted s mem (same ▸ List.mem_map.mpr ⟨'\'', quoted, rfl⟩)

/-- The conversion keeps the first character of what is cast, so it neither
    opens a literal nor hides one. -/
theorem convert_quoted_iff (lowercase : List Char → List Char) (text : String) :
    (trim (convertDefaultForBackend lowercase text .postgres).toList).head? = some '\'' ↔
      (trim text.toList).head? = some '\'' := by
  have absent : '\'' ∉ text.toList → (trim text.toList).head? ≠ some '\'' :=
    fun absent quoted => absent (mem_of_mem_trim (List.mem_of_mem_head? quoted))
  by_cases uuid : matchesAnySpelling text.toList uuidFunctionSpellings = true
  · refine iff_of_false ?_ (absent (spelling_unquoted uuid (by decide)))
    simp only [convertDefaultForBackend, uuid, ↓reduceIte]
    decide
  · by_cases timestamp : matchesAnySpelling text.toList timestampFunctionSpellings = true
    · refine iff_of_false ?_ (absent (spelling_unquoted timestamp (by decide)))
      simp only [convertDefaultForBackend, uuid, timestamp, Bool.false_eq_true, ↓reduceIte]
      decide
    · rw [convert_postgres_eq (Bool.eq_false_iff.mpr uuid) (Bool.eq_false_iff.mpr timestamp)]
      cases parsed : parsePgTypeCast lowercase text.toList with
      | none => simp [cast_pieces_none parsed]
      | some p =>
        have parsedTrim : parsePgTypeCast lowercase (trim text.toList) = some p := by
          simpa only [parsePgTypeCast, trim_trim] using parsed
        have present : trim text.toList ≠ [] := by
          intro empty
          obtain ⟨nonempty, _, head⟩ := parsed_head (trim_trim _) parsedTrim
          rw [empty, List.head?_nil, List.head?_eq_none_iff] at head
          exact nonempty head
        have head := pieces_head lowercase present (trim_trim _)
        rw [cast_pieces_some parsedTrim, ← cast_pieces_some parsed] at head
        obtain ⟨c, rest, split⟩ := List.exists_cons_of_ne_nil present
        have visible := (trim_tight text.toList).1 c (by rw [split]; rfl)
        rw [trim_head (head.trans (by rw [split]; rfl)) visible, split, List.head?_cons]

/-- Quotes hide no difference. -/
theorem enum_text_convert_iff (lowercase : List Char → List Char) (text : String) :
    enumText (convertDefaultForBackend lowercase text .postgres) = enumText text ↔
      convertDefaultForBackend lowercase text .postgres = text := by
  constructor
  · intro same
    have opening {s : String} : (trim ("'" ++ s ++ "'").toList).head? = some '\'' :=
      trim_head (by simp) (by decide)
    unfold enumText at same
    split at same <;> split at same
    · simpa using same
    · rename_i plain _
      have quoted := (convert_quoted_iff lowercase text).mpr (same ▸ opening)
      exact absurd quoted plain.1
    · rename_i plain
      have quoted := (convert_quoted_iff lowercase text).mp (same ▸ opening)
      exact absurd quoted plain.1
    · exact same
  · rintro same
    rw [same]

/-! Numbers -/

/-- A text that no conversion touches: no bracket, quote, colon or underscore. -/
structure Untouched (text : String) : Prop where
  characters : ∀ c ∈ text.toList, c ∉ [':', '(', ')', '\'', '"', '_']
  word : eqIgnoreAsciiCase (trim text.toList) "null".toList = false

theorem Untouched.of_all {text : String}
    (characters : text.toList.all (· ∉ [':', '(', ')', '\'', '"', '_']) = true)
    (word : eqIgnoreAsciiCase (trim text.toList) "null".toList = false) : Untouched text :=
  ⟨fun c mem => of_decide_eq_true (List.all_eq_true.mp characters c mem), word⟩

theorem upper_symbol {c d : Char} (symbol : d.isUpper = false) (same : c.toUpper = d) :
    c = d := by
  unfold Char.toUpper at same
  split at same
  · grind [Char.isUpper]
  · exact same

theorem symbol_kept {text other : List Char} (same : eqIgnoreAsciiCase text other = true)
    {d : Char} (symbol : d.isUpper = false) (mem : d ∈ other.map Char.toUpper) : d ∈ text := by
  simp only [eqIgnoreAsciiCase, decide_eq_true_eq] at same
  obtain ⟨c, here, raised⟩ := List.mem_map.mp (same ▸ mem)
  exact upper_symbol symbol raised ▸ here

theorem scan_without_colon {s : CastScan} {text : List Char} (start : s.last = none)
    (absent : ':' ∉ text) (index : Nat) : (scanCasts s index text).last = none := by
  induction text generalizing s index with
  | nil => exact start
  | cons c text ih =>
    obtain ⟨other, rest⟩ := not_or.mp (mt List.mem_cons.mpr absent)
    refine ih ?_ rest (index + 1)
    unfold CastScan.next
    split
    · exact start
    · split
      · exact start
      · exact start
      · exact start
      · exact absurd rfl other
      · exact start

section Untouched
variable {text : String} (untouched : Untouched text)
include untouched

theorem Untouched.absent {c : Char} (mem : c ∈ [':', '(', ')', '\'', '"', '_']) :
    c ∉ text.toList := fun here => untouched.characters c here mem

theorem Untouched.no_spelling {spellings : List String}
    (marked : ∀ s ∈ spellings, '(' ∈ s.toList.map Char.toUpper ∨ '_' ∈ s.toList.map Char.toUpper) :
    matchesAnySpelling text.toList spellings = false := by
  rw [matchesAnySpelling, List.any_eq_false]
  intro s mem same
  rcases marked s mem with bracket | underscore
  · exact untouched.absent (by decide) (symbol_kept same (by decide) bracket)
  · exact untouched.absent (by decide) (symbol_kept same (by decide) underscore)

theorem Untouched.no_cast (lowercase : List Char → List Char) :
    parsePgTypeCast lowercase text.toList = none := by
  have absent : ':' ∉ trim text.toList :=
    fun mem => untouched.absent (by decide) (mem_of_mem_trim mem)
  have none : findLastTopLevelCast (trim text.toList) = none := by
    unfold findLastTopLevelCast
    simp only
    split
    · rfl
    · exact scan_without_colon rfl absent 0
  simp [parsePgTypeCast, none]

theorem Untouched.convert_eq (lowercase : List Char → List Char) (backend : DatabaseBackend) :
    convertDefaultForBackend lowercase text backend = text := by
  have uuid : matchesAnySpelling text.toList uuidFunctionSpellings = false :=
    untouched.no_spelling (by decide)
  have timestamp : matchesAnySpelling text.toList timestampFunctionSpellings = false :=
    untouched.no_spelling (by decide)
  simp [convertDefaultForBackend, untouched.no_cast lowercase, uuid, timestamp]

theorem Untouched.plain_word : PlainWord text := by
  have absent {c : Char} (mem : c ∈ [':', '(', ')', '\'', '"', '_']) :
      c ∉ trim text.toList := fun here => untouched.absent mem (mem_of_mem_trim here)
  refine ⟨?_, ?_, absent (by decide), absent (by decide), ?_⟩
  · exact fun head => absent (by decide) (List.mem_of_mem_head? head)
  · exact fun head => absent (by decide) (List.mem_of_mem_head? head)
  · intro keyword mem
    rcases List.mem_cons.mp mem with rfl | later
    · exact untouched.word
    · have marked : '_' ∈ keyword.toList.map Char.toUpper := by
        revert keyword
        decide
      rw [Bool.eq_false_iff]
      exact fun same => absent (by decide) (symbol_kept same (by decide) marked)

end Untouched

theorem numeral_upper {c : Char} (numeral : c.isDigit ∨ c = '-' ∨ c = '.') : c.toUpper = c := by
  unfold Char.toUpper
  rw [dif_neg]
  rcases numeral with digit | rfl | rfl
  · grind [Char.isDigit]
  · decide
  · decide

theorem numeral_untouched {text : String}
    (numeral : ∀ c ∈ text.toList, c.isDigit ∨ c = '-' ∨ c = '.') : Untouched text := by
  constructor
  · intro c mem other
    have own := numeral c mem
    simp only [List.mem_cons, List.not_mem_nil, or_false] at other
    rcases other with rfl | rfl | rfl | rfl | rfl | rfl <;> revert own <;> decide
  · rw [Bool.eq_false_iff]
    intro same
    simp only [eqIgnoreAsciiCase, decide_eq_true_eq] at same
    have letter : 'N' ∈ (trim text.toList).map Char.toUpper := by
      rw [same]
      decide
    obtain ⟨c, mem, raised⟩ := List.mem_map.mp letter
    have own := numeral c (mem_of_mem_trim mem)
    rw [numeral_upper own] at raised
    subst raised
    revert own
    decide

theorem number_untouched {d : DefaultValue} (number : d.isString = false)
    (printed : ∀ f, d = .float f → PrintedFloat f.display) : Untouched d.toSql := by
  cases d with
  | string s => simp [DefaultValue.isString] at number
  | bool b => cases b <;> exact .of_all (by decide) (by decide)
  | float f =>
    rcases printed f rfl with word | numeral
    · change Untouched f.display
      simp only [List.mem_cons, List.not_mem_nil, or_false] at word
      rcases word with word | word | word <;> rw [word] <;> exact .of_all (by decide) (by decide)
    · exact numeral_untouched numeral
  | integer n =>
    have digits (m : Nat) : ∀ c ∈ m.repr.toList, c.isDigit = true := by
      intro c mem
      rw [Nat.repr, String.toList_ofList] at mem
      exact Nat.isDigit_of_mem_toDigits (by decide) (by decide) mem
    refine numeral_untouched fun c mem => ?_
    cases n with
    | ofNat m => exact .inl (digits m c mem)
    | negSucc m =>
      have text : (DefaultValue.integer (Int.negSucc m)).toSql = "-" ++ m.succ.repr := rfl
      rw [text, String.toList_append] at mem
      rcases List.mem_append.mp mem with sign | later
      · exact .inr (.inl (by simpa using sign))
      · exact .inl (digits _ c later)

/-! The two paths -/

/-- SQLite takes a call for a default in brackets only. -/
def bracketed (backend : DatabaseBackend) (text : String) : String :=
  if backend = .sqlite ∧ '(' ∈ text.toList ∧ text.toList.head? ≠ some '(' then "(" ++ text ++ ")"
  else text

theorem bracketed_absent {text : String} (absent : '(' ∉ text.toList) (backend : DatabaseBackend) :
    bracketed backend text = text := by
  rw [bracketed, if_neg]
  exact fun ⟨_, present, _⟩ => absent present

theorem find_map_first (column : String) {f : ColumnDef → ColumnDef}
    (keeps : ∀ c, (f c).name = c.name) (cols : List ColumnDef) :
    (mapFirstColumn column f cols).find? (·.name = column) =
      (cols.find? (·.name = column)).map f := by
  induction cols with
  | nil => rfl
  | cons c cols ih =>
    by_cases here : c.name = column
    · simp [mapFirstColumn, here, keeps]
    · simpa [mapFirstColumn, here] using ih

section Paths
variable (lowercase : List Char → List Char) (backend : DatabaseBackend)

theorem default_text_eq (sea : SeaColumnDef) (d : DefaultValue) (given : sea.default = some d) :
    sea.defaultText lowercase backend = some (bracketed backend
      (if sea.type.isEnum ∧ d.isString then
        enumText (convertDefaultForBackend lowercase d.toSql backend)
      else convertDefaultForBackend lowercase d.toSql backend)) := by
  have quoted : (if sea.type.isEnum ∧ d.isString ∧
      needsQuoting (convertDefaultForBackend lowercase d.toSql backend) then
        "'" ++ convertDefaultForBackend lowercase d.toSql backend ++ "'"
      else convertDefaultForBackend lowercase d.toSql backend) =
      if sea.type.isEnum ∧ d.isString then
        enumText (convertDefaultForBackend lowercase d.toSql backend)
      else convertDefaultForBackend lowercase d.toSql backend := by
    simp only [needs_quoting_iff, enumText, ← and_assoc]
    split
    · rename_i all
      simp [all]
    · rename_i some
      split
      · rename_i both
        rw [if_neg fun plain => some ⟨both, plain⟩]
      · rfl
  simp only [SeaColumnDef.defaultText, given, Option.map_some, quoted, bracketed]

variable {currentSchema : List TableDef} {table column : String} {t : TableDef} {c : ColumnDef}
  (inSchema : currentSchema.find? (·.name = table) = some t)
  (inTable : t.columns.find? (·.name = column) = some c)
include inSchema inTable

theorem changed_postgres (pendingConstraints : List TableConstraint) (text : String)
    (backfill : Option String) :
    ∃ queries, buildModifyColumnDefault .postgres table column currentSchema pendingConstraints
        (some text) backfill = .ok queries ∧
      changedDefault lowercase .postgres table column queries =
        some (if c.type.isEnum then enumText text else text) := by
  refine ⟨_, rfl, ?_⟩
  have normalized : normalizeEnumDefault c.type text =
      if c.type.isEnum then enumText text else text := by
    simp only [normalizeEnumDefault, needs_quoting_iff, enumText]
    split <;> rename_i enum <;> simp_all
  have sent (expr : String) : statementDefault lowercase .postgres table column
      (.alter (buildPgAlterColumnSql table column ("SET DEFAULT " ++ expr))) = some expr := by
    have whole : (buildPgAlterColumnSql table column ("SET DEFAULT " ++ expr)).toList =
        (buildPgAlterColumnSql table column "SET DEFAULT ").toList ++ expr.toList := by
      delta buildPgAlterColumnSql
      simp only [String.toList_append, List.append_assoc]
    delta statementDefault
    simp [whole, after_append]
  simp only [changedDefault, findColumnInSchema, inSchema, inTable, Option.bind_some,
    List.findSome?_cons, sent, normalized]

theorem changed_mysql (pendingConstraints : List TableConstraint) (text : String)
    (backfill : Option String) :
    ∃ queries, buildModifyColumnDefault .mySql table column currentSchema pendingConstraints
        (some text) backfill = .ok queries ∧
      changedDefault lowercase .mySql table column queries =
        createdDefault lowercase .mySql { c with default := some (.string text) } := by
  have required : requireColumnInTable t column = .ok c := by
    simp only [requireColumnInTable, inTable]
  simp only [buildModifyColumnDefault, buildMysqlModifyColumnWith, requireTableInSchema, inSchema,
    Except.bind, bind, required]
  refine ⟨_, rfl, ?_⟩
  have sent := default_text_eq lowercase .mySql
    (buildSeaColumnDef { c with default := some (.string text) }) (.string text) rfl
  simp only [changedDefault, List.findSome?_cons, statementDefault, createdDefault,
    Option.map_some, sent]

theorem changed_sqlite (pendingConstraints : List TableConstraint) (text : String)
    (backfill : Option String) :
    ∃ queries, buildModifyColumnDefault .sqlite table column currentSchema pendingConstraints
        (some text) backfill = .ok queries ∧
      changedDefault lowercase .sqlite table column queries =
        createdDefault lowercase .sqlite { c with default := some (.string text) } := by
  simp only [buildModifyColumnDefault, buildSqliteModifyColumnWith, requireTableInSchema, inSchema]
  refine ⟨_, rfl, ?_⟩
  have sent := default_text_eq lowercase .sqlite
    (buildSeaColumnDef { c with default := some (.string text) }) (.string text) rfl
  have sent' := default_text_eq lowercase .sqlite
    (createTableColumn .sqlite t.constraints { c with default := some (.string text) })
    (.string text) rfl
  have changed := find_map_first column
    (f := fun c => { c with default := some (.string text) }) (fun _ => rfl) t.columns
  rw [inTable, Option.map_some] at changed
  have found : ((mapFirstColumn column (fun c => { c with default := some (.string text) })
      t.columns).map (createTableColumn .sqlite t.constraints)).find? (·.name = column) =
      some (createTableColumn .sqlite t.constraints { c with default := some (.string text) }) := by
    rw [List.find?_map]
    exact congrArg (Option.map (createTableColumn .sqlite t.constraints)) changed
  simp only [buildSqliteTableRebuild, buildSqliteTempTableCreate, buildCreateWithChecks,
    buildCreateTableForBackend, changedDefault, List.findSome?_cons, List.cons_append,
    statementDefault, Option.map_some, found, Option.bind_some, sent', createdDefault, sent]
  rfl

end Paths

theorem number_quoted {text : String} (untouched : Untouched text) :
    enumText text ≠ text ∧ '(' ∉ (enumText text).toList := by
  have quoted : enumText text = "'" ++ text ++ "'" := if_pos untouched.plain_word
  rw [quoted]
  constructor
  · intro same
    have length := congrArg String.length same
    have one : "'".length = 1 := rfl
    simp only [String.length_append, one] at length
    omega
  · simpa using untouched.absent (c := '(') (by decide)

section Alike
variable (lowercase : List Char → List Char) (c : ColumnDef) {d : DefaultValue}
  (printed : ∀ f, d = .float f → PrintedFloat f.display)
include printed

theorem created_number (backend : DatabaseBackend) (number : d.isString = false) :
    createdDefault lowercase backend { c with default := some d } = some d.toSql := by
  have untouched := number_untouched number printed
  rw [createdDefault, default_text_eq lowercase backend _ d rfl, number,
    untouched.convert_eq lowercase backend]
  simp [bracketed_absent (untouched.absent (c := '(') (by decide))]

theorem alike_postgres_iff :
    some (if c.type.isEnum then enumText d.toSql else d.toSql) =
        createdDefault lowercase .postgres { c with default := some d } ↔
      (c.type.isEnum → d.isString) ∧ Spelled lowercase d.toSql := by
  cases string : d.isString with
  | false =>
    have untouched := number_untouched string printed
    have spelled := (convert_postgres_iff d.toSql).mp (untouched.convert_eq lowercase .postgres)
    have differs := (number_quoted untouched).1
    rw [created_number lowercase c printed .postgres string, Option.some.injEq]
    cases c.type.isEnum with
    | false => simp [spelled]
    | true => simpa using differs
  | true =>
    have sent := default_text_eq lowercase .postgres
      (buildSeaColumnDef { c with default := some d }) d rfl
    have type : (buildSeaColumnDef { c with default := some d }).type = c.type := rfl
    rw [createdDefault, sent, type, string, Option.some.injEq, eq_comm]
    simp only [bracketed, reduceCtorEq, false_and, ↓reduceIte, and_true, implies_true, true_and,
      ← convert_postgres_iff]
    cases c.type.isEnum with
    | false => simp only [Bool.false_eq_true, ↓reduceIte]
    | true => simpa only [↓reduceIte] using enum_text_convert_iff lowercase d.toSql

theorem alike_elsewhere_iff (backend : DatabaseBackend) :
    createdDefault lowercase backend { c with default := some (.string d.toSql) } =
        createdDefault lowercase backend { c with default := some d } ↔
      (c.type.isEnum → d.isString) := by
  have sent (e : DefaultValue) : createdDefault lowercase backend { c with default := some e } =
      some (bracketed backend (if c.type.isEnum ∧ e.isString then
        enumText (convertDefaultForBackend lowercase e.toSql backend)
      else convertDefaultForBackend lowercase e.toSql backend)) :=
    default_text_eq lowercase backend _ e rfl
  cases string : d.isString with
  | true =>
    have text : (DefaultValue.string d.toSql).isString = true := rfl
    simp only [sent, to_sql_string, string, text, implies_true]
  | false =>
    have untouched := number_untouched string printed
    obtain ⟨differs, unbracketed⟩ := number_quoted untouched
    rw [created_number lowercase c printed backend string, sent, to_sql_string,
      untouched.convert_eq lowercase backend, Option.some.injEq]
    cases c.type.isEnum with
    | false => simp [bracketed_absent (untouched.absent (c := '(') (by decide))]
    | true => simpa [DefaultValue.isString, bracketed_absent unbracketed] using differs

end Alike

/-- The default set afterwards is the default of a new column except for numbers
    and truth values given to an enum, and on PostgreSQL for the texts that the
    conversion spells differently. -/
theorem modified_default_alike_iff (lowercase : List Char → List Char) (backend : DatabaseBackend)
    {currentSchema : List TableDef} (pendingConstraints : List TableConstraint)
    {table column : String} {t : TableDef} {c : ColumnDef}
    (inSchema : currentSchema.find? (·.name = table) = some t)
    (inTable : t.columns.find? (·.name = column) = some c) (d : DefaultValue)
    (printed : ∀ f, d = .float f → PrintedFloat f.display) (backfill : Option String) :
    (∃ queries, buildModifyColumnDefault backend table column currentSchema pendingConstraints
        (some d.toSql) backfill = .ok queries ∧
      changedDefault lowercase backend table column queries =
        createdDefault lowercase backend { c with default := some d }) ↔
      (c.type.isEnum → d.isString) ∧ (backend = .postgres → Spelled lowercase d.toSql) := by
  cases backend with
  | postgres =>
    obtain ⟨queries, built, changed⟩ :=
      changed_postgres lowercase inSchema inTable pendingConstraints d.toSql backfill
    simp only [built, Except.ok.injEq, exists_eq_left', changed, true_implies]
    exact alike_postgres_iff lowercase c printed
  | mySql =>
    obtain ⟨queries, built, changed⟩ :=
      changed_mysql lowercase inSchema inTable pendingConstraints d.toSql backfill
    simp only [built, Except.ok.injEq, exists_eq_left', changed, reduceCtorEq, false_implies,
      and_true]
    exact alike_elsewhere_iff lowercase c printed .mySql
  | sqlite =>
    obtain ⟨queries, built, changed⟩ :=
      changed_sqlite lowercase inSchema inTable pendingConstraints d.toSql backfill
    simp only [built, Except.ok.injEq, exists_eq_left', changed, reduceCtorEq, false_implies,
      and_true]
    exact alike_elsewhere_iff lowercase c printed .sqlite

section Tokens

def tokenColumn (type : SimpleColumnType) : ColumnDef :=
  ⟨"token", .simple type, false, none, none, none, none, none, none⟩

def tokenSchema (type : SimpleColumnType) : List TableDef :=
  [⟨"sessions", none, [tokenColumn type], []⟩]

theorem timestamp_default_alike :
    ∃ queries, buildModifyColumnDefault .postgres "sessions" "token" (tokenSchema .timestamp) []
        (some "CURRENT_TIMESTAMP") none = .ok queries ∧
      changedDefault id .postgres "sessions" "token" queries =
        createdDefault id .postgres
          { tokenColumn .timestamp with default := some (.string "CURRENT_TIMESTAMP") } :=
  (modified_default_alike_iff id .postgres []
    (rfl : (tokenSchema .timestamp).find? (·.name = "sessions") =
      some ⟨"sessions", none, [tokenColumn .timestamp], []⟩)
    rfl (.string "CURRENT_TIMESTAMP") (by rintro f ⟨⟩) none).mpr
    ⟨fun _ => rfl, fun _ => (convert_postgres_iff "CURRENT_TIMESTAMP").mp rfl⟩

/-- PostgreSQL has no function of this name: the column is made with
    `gen_random_uuid()` and changed to `uuid()`. -/
theorem uuid_default_sent_raw :
    ¬ ∀ (lowercase : List Char → List Char) (backend : DatabaseBackend)
        (currentSchema : List TableDef) (table column : String) (t : TableDef) (c : ColumnDef),
      currentSchema.find? (·.name = table) = some t →
      t.columns.find? (·.name = column) = some c → ∀ text : String,
        ∃ queries, buildModifyColumnDefault backend table column currentSchema [] (some text) none =
            .ok queries ∧
          changedDefault lowercase backend table column queries =
            createdDefault lowercase backend { c with default := some (.string text) } := by
  intro alike
  have inSchema : (tokenSchema .uuid).find? (·.name = "sessions") =
      some ⟨"sessions", none, [tokenColumn .uuid], []⟩ := rfl
  have inTable : [tokenColumn .uuid].find? (·.name = "token") = some (tokenColumn .uuid) := rfl
  obtain ⟨queries, built, same⟩ := alike id .postgres (tokenSchema .uuid) "sessions" "token"
    ⟨"sessions", none, [tokenColumn .uuid], []⟩ (tokenColumn .uuid) inSchema inTable "uuid()"
  obtain ⟨queries', built', sent⟩ := changed_postgres id inSchema inTable [] "uuid()" none
  obtain rfl := Except.ok.inj (built.symm.trans built')
  have spelled := (alike_postgres_iff id (tokenColumn .uuid) (d := .string "uuid()")
    (by rintro f ⟨⟩)).mp (sent.symm.trans same)
  exact absurd (spelled.2.uuid (by decide)) (by decide)

end Tokens

end Vespertide
