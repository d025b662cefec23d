import Mathlib
import Vespertide.CheckExpr
import Vespertide.RelationNames
import Vespertide.Support.LiteralSyntax

/-!
The default of a column as Drizzle and Prisma are given it. The text of the
default is looked through for calls before its quotes are looked at, so a literal
that mentions a call is taken for one; what is left is escaped for its target.
-/
namespace Vespertide.ExportedDefaults
open Text

/-- The tables of Unicode that the standard library reads. -/
structure Unicode where
  toLowercase : List Char → List Char
  isUppercase : Char → Bool
  isLowercase : Char → Bool
  isAlphanumeric : Char → Bool

/-! Writing literals -/

def stringChar : Char → List Char
  | '\\' => ['\\', '\\']
  | '"' => ['\\', '"']
  | '\n' => ['\\', 'n']
  | '\r' => ['\\', 'r']
  | '\t' => ['\\', 't']
  | ch => [ch]

def stringLiteral (value : List Char) : List Char := '"' :: value.flatMap stringChar ++ ['"']

def stripPair (quote : Char) : List Char → Option (List Char)
  | [] => none
  | first :: rest =>
      if first = quote ∧ rest.getLast? = some quote then some rest.dropLast else none

/-- Doubled quotes within stay doubled. -/
def unquote (s : List Char) : List Char :=
  ((stripPair '\'' s).orElse fun _ => stripPair '"' s).getD s

def escapeBacktick (s : List Char) : List Char :=
  let slashed := replace ['\\'] ['\\', '\\'] s
  replace ['$', '{'] ['\\', '$', '{'] (replace ['`'] ['\\', '`'] slashed)

/-- `parse::<f64>` takes the names of the values that are no numbers as well. -/
def parsesF64 (raw : List Char) : Bool :=
  isF64 raw || ["inf", "infinity", "nan"].any fun name =>
    eqIgnoreAsciiCase (takeSign raw).2 name.toList

/-! Drizzle -/

inductive DrizzleDialect where
  | pg
  | mysql
  | sqlite
  deriving DecidableEq, Repr

structure DefaultChain where
  text : List Char
  needsSql : Bool
  deriving DecidableEq, Repr

namespace DefaultChain

def literal (text : List Char) : DefaultChain := ⟨text, false⟩

def tagged (expr : List Char) : DefaultChain :=
  ⟨".default(sql`".toList ++ escapeBacktick expr ++ "`)".toList, true⟩

def plain (value : List Char) : DefaultChain :=
  literal (".default(".toList ++ value ++ ")".toList)

end DefaultChain

def integerEnumVariantValue (variants : List NumValue) (name : List Char) : Option Int :=
  (variants.find? (·.name.toList = name)).map (·.value)

/-- The spellings of the current time, in a text in lower case. -/
def isCurrentTime (lower : List Char) : Bool :=
  "current_timestamp".toList.isPrefixOf lower || contains lower "now()".toList

def defaultChain (unicode : Unicode) (defaultSql : List Char) (colType : ColumnType)
    (dialect : DrizzleDialect) : DefaultChain :=
  let lower := unicode.toLowercase defaultSql
  let trimmed := trim defaultSql
  if defaultSql = "true".toList ∨ defaultSql = "false".toList then .plain defaultSql
  else if isCurrentTime lower then
    match dialect with
    | .pg => .tagged "CURRENT_TIMESTAMP".toList
    | .mysql => .literal ".defaultNow()".toList
    | .sqlite => .tagged "(CURRENT_TIMESTAMP)".toList
  else if contains lower "gen_random_uuid()".toList then
    match dialect with
    | .pg => .literal ".defaultRandom()".toList
    | .mysql => .tagged "(uuid())".toList
    | .sqlite => .tagged "(lower(hex(randomblob(16))))".toList
  else if colType = .simple .json ∧ (trimmed.head? = some '{' ∨ trimmed.head? = some '[') then
    let quoted := replace ['\''] ['\'', '\''] trimmed
    match dialect with
    | .pg => .tagged ('\'' :: quoted ++ "'::json".toList)
    | _ => .tagged ('\'' :: quoted ++ ['\''])
  else if '(' ∈ defaultSql then .tagged defaultSql
  else if defaultSql.head? = some '\'' then
    .plain (stringLiteral (replace ['\'', '\''] ['\''] (unquote defaultSql)))
  else if defaultSql.head? = some '"' then .plain (stringLiteral (unquote defaultSql))
  else if parsesF64 defaultSql then
    match colType with
    | .complex (.numeric _ _) => .plain (stringLiteral defaultSql)
    | _ => .plain defaultSql
  else
    match colType with
    | .complex (.enum _ (.integer variants)) =>
        match integerEnumVariantValue variants defaultSql with
        | some value => .plain (toString value).toList
        | none => .tagged defaultSql
    | _ => .tagged defaultSql

/-! Prisma -/

/-- The words of a name in capitals; `prevLower` says whether one may end here. -/
def screamingSnake (unicode : Unicode) : Bool → List Char → List Char
  | _, [] => []
  | prevLower, ch :: s =>
      (if unicode.isUppercase ch && prevLower then ['_'] else []) ++
        if unicode.isAlphanumeric ch then
          ch.toUpper :: screamingSnake unicode (unicode.isLowercase ch) s
        else '_' :: screamingSnake unicode false s

def toScreamingSnakeCase (unicode : Unicode) (s : List Char) : List Char :=
  (screamingSnake unicode false s).rdropWhile (· = '_')

def enumVariant (unicode : Unicode) (value : List Char) : List Char :=
  (sanitizeIdentifier (String.ofList (toScreamingSnakeCase unicode value)) .letter).toList

def prismaUuidSpellings : List String := ["gen_random_uuid()", "uuid_generate_v4()", "newid()"]

def prismaDefault (value : List Char) : List Char := "@default(".toList ++ value ++ ")".toList

def dbgenerated (expr : List Char) : List Char :=
  prismaDefault ("dbgenerated(\"".toList ++ replace ['"'] ['\\', '"'] expr ++ "\")".toList)

def prismaDefaultAttr (unicode : Unicode) (defaultSql : List Char) (colType : ColumnType) :
    List Char :=
  match colType with
  | .complex (.enum _ (.integer intValues)) =>
      let key := unquote defaultSql
      let byValue := (parseI64 key).bind fun n => intValues.find? (·.value = n)
      match byValue.orElse fun _ => intValues.find? (·.name.toList = key) with
      | some v => prismaDefault (enumVariant unicode v.name.toList)
      | none => dbgenerated key
  | colType =>
      let lower := unicode.toLowercase defaultSql
      if defaultSql = "true".toList ∨ defaultSql = "false".toList then prismaDefault defaultSql
      else if isCurrentTime lower then prismaDefault "now()".toList
      else if prismaUuidSpellings.any (contains lower ·.toList) then prismaDefault "uuid()".toList
      else if '(' ∈ defaultSql then dbgenerated defaultSql
      else if defaultSql.head? = some '\'' ∨ defaultSql.head? = some '"' then
        let stripped := unquote defaultSql
        let literal := prismaDefault
          ('"' :: replace ['"'] ['\\', '"'] (replace ['\\'] ['\\', '\\'] stripped) ++ ['"'])
        match colType with
        | .complex (.enum _ (.string variants)) =>
            if String.ofList stripped ∈ variants then prismaDefault (enumVariant unicode stripped)
            else literal
        | _ => literal
      else if parsesF64 defaultSql then prismaDefault defaultSql
      else dbgenerated defaultSql

/-! What is denoted -/

section Denoted
variable (escapes : Char → List Char → Option (Char × Nat))

/-- What follows a backslash in TypeScript; `escapes` reads those by number. -/
def tsEscape : List Char → Option (List Char × Nat)
  | [] => none
  | e :: s =>
      match e with
      | 'n' => some (['\n'], 1)
      | 'r' => some (['\r'], 1)
      | 't' => some (['\t'], 1)
      | 'b' => some (['\x08'], 1)
      | 'f' => some (['\x0c'], 1)
      | 'v' => some (['\x0b'], 1)
      | '\n' => some ([], 1)
      | '\r' => some ([], if s.head? = some '\n' then 2 else 1)
      | '\u2028' => some ([], 1)
      | '\u2029' => some ([], 1)
      | e =>
          if e = 'x' ∨ e = 'u' ∨ e.isDigit then
            (escapes e s).map fun (c, more) => ([c], more + 1)
          else some ([e], 1)

def tsString : LiteralSyntax where
  closing := '"'
  value c s :=
    if c = '\\' then tsEscape escapes s
    else if c = '\n' ∨ c = '\r' then none
    else some ([c], 0)

/-- A template without interpolations; the ends of its lines are line feeds. -/
def tsTemplate : LiteralSyntax where
  closing := '`'
  value c s :=
    if c = '\\' then tsEscape escapes s
    else if c = '$' ∧ s.head? = some '{' then none
    else if c = '\r' then some (['\n'], if s.head? = some '\n' then 1 else 0)
    else some ([c], 0)

/-- A string of a Prisma schema; `escapes` reads the other escapes. -/
def prismaString : LiteralSyntax where
  closing := '"'
  value c s :=
    if c = '\\' then
      match s with
      | [] => none
      | '\\' :: _ => some (['\\'], 1)
      | '"' :: _ => some (['"'], 1)
      | 'n' :: _ => some (['\n'], 1)
      | 'r' :: _ => some (['\r'], 1)
      | 't' :: _ => some (['\t'], 1)
      | e :: s => (escapes e s).map fun (c, more) => ([c], more + 1)
    else if c = '\n' ∨ c = '\r' then none
    else some ([c], 0)

end Denoted

/-- The literal between an opening and a closing text. -/
def readCall (l : LiteralSyntax) (opening closing text : List Char) : Option (List Char) :=
  (after opening text).bind fun body =>
    (l.read 0 body).bind fun (value, rest) => if rest = closing then some value else none

inductive Denoted where
  | text (value : List Char)
  | sql (expr : List Char)
  deriving DecidableEq, Repr

section Readers
variable (escapes : Char → List Char → Option (Char × Nat))

def readDrizzle (chain : List Char) : Option Denoted :=
  ((readCall (tsTemplate escapes) ".default(sql`".toList ")".toList chain).map Denoted.sql).orElse
    fun _ => (readCall (tsString escapes) ".default(\"".toList ")".toList chain).map Denoted.text

def readPrisma (attr : List Char) : Option Denoted :=
  ((readCall (prismaString escapes) "@default(dbgenerated(\"".toList "))".toList attr).map
    Denoted.sql).orElse fun _ =>
      (readCall (prismaString escapes) "@default(\"".toList ")".toList attr).map Denoted.text

end Readers

def Denotes (value : List Char) (denoted : Option Denoted) : Prop :=
  denoted = some (.text value) ∨ denoted = some (.sql (quote '\'' value))

instance (value : List Char) (denoted : Option Denoted) : Decidable (Denotes value denoted) :=
  inferInstanceAs (Decidable (_ ∨ _))

inductive TextColumn : ColumnType → Prop where
  | text : TextColumn (.simple .text)
  | varchar (length : Nat) : TextColumn (.complex (.varchar length))
  | char (length : Nat) : TextColumn (.complex (.char length))
  | custom (customType : String) : TextColumn (.complex (.custom customType))

section Conditions
variable (unicode : Unicode) (value : List Char)

def MentionsNone (calls : List String) : Prop :=
  isCurrentTime (unicode.toLowercase (quote '\'' value)) = false ∧
    ∀ call ∈ calls, contains (unicode.toLowercase (quote '\'' value)) call.toList = false

/-- Where the text has a bracket it is written as a template, which keeps no carriage return. -/
def DrizzleSafe : Prop :=
  MentionsNone unicode value ["gen_random_uuid()"] ∧ ('(' ∈ value → '\r' ∉ value)

/-- A text with a bracket is written as SQL with its backslashes as they are, any other with its
    quotes doubled; neither may be broken into lines. -/
def PrismaSafe : Prop :=
  MentionsNone unicode value prismaUuidSpellings ∧ '\n' ∉ value ∧ '\r' ∉ value ∧
    if '(' ∈ value then '\\' ∉ value else '\'' ∉ value

instance (calls : List String) : Decidable (MentionsNone unicode value calls) :=
  inferInstanceAs (Decidable (_ ∧ _))

instance : Decidable (DrizzleSafe unicode value) := inferInstanceAs (Decidable (_ ∧ (_ → _)))

instance : Decidable (PrismaSafe unicode value) := inferInstanceAs (Decidable (_ ∧ _ ∧ _ ∧ ite _ _ _))

end Conditions

/-! TypeScript -/

section TypeScript
variable {escapes : Char → List Char → Option (Char × Nat)}

theorem string_char_read (c : Char) (t : List Char) :
    (tsString escapes).read 0 (stringChar c ++ t) =
      ((tsString escapes).read 0 t).map fun (rest, after) => (c :: rest, after) := by
  unfold stringChar
  split
  · rfl
  · rfl
  · rfl
  · rfl
  · rfl
  · rename_i slash quote feed carriage tab
    refine LiteralSyntax.read_plain quote ?_
    change (if c = '\\' then _ else if c = '\n' ∨ c = '\r' then _ else _) = _
    rw [if_neg slash, if_neg (not_or.mpr ⟨feed, carriage⟩)]

theorem string_literal_read (value t : List Char) :
    (tsString escapes).read 0 (value.flatMap stringChar ++ '"' :: t) = some (value, t) := by
  induction value with
  | nil => rfl
  | cons c value ih =>
    rw [List.flatMap_cons, List.append_assoc, string_char_read, ih, Option.map_some]

def templated : List Char → List Char
  | [] => []
  | c :: s =>
      (if c = '\\' ∨ c = '`' ∨ c = '$' ∧ s.head? = some '{' then ['\\', c] else [c]) ++ templated s

/-- The marks of a template alone. -/
def marked (s : List Char) : List Char :=
  s.flatMap fun c => if c = '\\' ∨ c = '`' then ['\\', c] else [c]

theorem marked_head (s : List Char) : (marked s).head? = some '{' ↔ s.head? = some '{' := by
  cases s with
  | nil => rfl
  | cons c s =>
    by_cases mark : c = '\\' ∨ c = '`'
    · rcases mark with rfl | rfl <;> simp [marked]
    · simp [marked, mark]

theorem replace_marks (s : List Char) :
    replace ['`'] ['\\', '`'] (replace ['\\'] ['\\', '\\'] s) = marked s := by
  rw [replace_one, replace_one, List.flatMap_assoc]
  refine List.flatMap_congr fun c _ => ?_
  by_cases slash : c = '\\'
  · simp [slash]
  · by_cases tick : c = '`' <;> simp [slash, tick]

theorem escape_backtick_eq (s : List Char) : escapeBacktick s = templated s := by
  rw [escapeBacktick, replace_marks]
  induction s with
  | nil => rfl
  | cons c s ih =>
    have opening := marked_head s
    by_cases mark : c = '\\' ∨ c = '`'
    · have chars : marked (c :: s) = '\\' :: c :: marked s := by simp [marked, mark]
      have other : ¬ (c = '$' ∧ (marked s).head? = some '{') := by
        rintro ⟨rfl, -⟩
        simp at mark
      rw [chars, replace_two, if_neg (by simp), replace_two, if_neg other, ih, templated,
        if_pos (by tauto)]
      rfl
    · have chars : marked (c :: s) = c :: marked s := by simp [marked, mark]
      rw [chars, replace_two, templated]
      by_cases opened : c = '$' ∧ s.head? = some '{'
      · obtain ⟨rfl, first⟩ := opened
        obtain ⟨rest, rfl⟩ := List.head?_eq_some_iff.mp first
        have body : marked ('{' :: rest) = '{' :: marked rest := by simp [marked]
        rw [body, replace_two, if_neg (by simp)] at ih
        rw [if_pos ⟨rfl, opening.mpr rfl⟩, if_pos (.inr (.inr ⟨rfl, rfl⟩)), ← ih, body]
        rfl
      · rw [if_neg (by tauto), if_neg (by tauto), ih]
        rfl

/-- The text that a template reads: every end of a line is a line feed. -/
def lineFed : List Char → List Char
  | [] => []
  | c :: s =>
      if c = '\r' then if s.head? = some '\n' then lineFed s else '\n' :: lineFed s
      else c :: lineFed s

theorem templated_head {c : Char} (plain : c ∉ ['\\', '`', '$']) (s t : List Char) :
    (templated s ++ '`' :: t).head? = some c ↔ s.head? = some c := by
  have apart : '\\' ≠ c ∧ '`' ≠ c ∧ '$' ≠ c := by simpa [eq_comm] using plain
  cases s with
  | nil => simp [templated, apart]
  | cons d s =>
    rw [templated]
    split
    · rename_i mark
      rcases mark with rfl | rfl | ⟨rfl, -⟩ <;> simp [apart]
    · simp

theorem template_escape {c : Char} (mark : c ∈ ['\\', '`', '$']) (t : List Char) :
    (tsTemplate escapes).read 0 ('\\' :: c :: t) =
      ((tsTemplate escapes).read 0 t).map fun (rest, after) => (c :: rest, after) := by
  simp only [List.mem_cons, List.not_mem_nil, or_false] at mark
  rcases mark with rfl | rfl | rfl <;> rfl

theorem template_plain {c : Char} {t : List Char} (mark : c ≠ '\\' ∧ c ≠ '`')
    (opening : ¬ (c = '$' ∧ t.head? = some '{')) (carriage : c ≠ '\r') :
    (tsTemplate escapes).read 0 (c :: t) =
      ((tsTemplate escapes).read 0 t).map fun (rest, after) => (c :: rest, after) := by
  refine LiteralSyntax.read_plain mark.2 ?_
  change (if c = '\\' then _ else if c = '$' ∧ _ then _ else if c = '\r' then _ else _) = _
  rw [if_neg mark.1, if_neg opening, if_neg carriage]

theorem template_carriage (t : List Char) :
    (tsTemplate escapes).read 0 ('\r' :: t) =
      if t.head? = some '\n' then (tsTemplate escapes).read 0 t
      else ((tsTemplate escapes).read 0 t).map fun (rest, after) => ('\n' :: rest, after) := by
  cases t with
  | nil => rfl
  | cons c t =>
    by_cases feed : c = '\n'
    · subst feed
      rfl
    · have other : (c :: t).head? ≠ some '\n' := by simpa using feed
      rw [if_neg other]
      refine @LiteralSyntax.read_value _ '\r' [] (c :: t) ['\n'] (by simp [tsTemplate]) ?_
      change some (['\n'], if (c :: t).head? = some '\n' then 1 else 0) = _
      rw [if_neg other]
      rfl

theorem template_read (s t : List Char) :
    (tsTemplate escapes).read 0 (templated s ++ '`' :: t) = some (lineFed s, t) := by
  induction s with
  | nil => rfl
  | cons c s ih =>
    rw [templated, lineFed]
    split
    · rename_i mark
      have member : c ∈ ['\\', '`', '$'] := by
        rcases mark with rfl | rfl | ⟨rfl, -⟩ <;> simp
      have other : c ≠ '\r' := by rintro rfl; simp at member
      simp only [List.cons_append, List.nil_append]
      rw [if_neg other, template_escape member, ih, Option.map_some]
    · rename_i plain
      simp only [List.cons_append, List.nil_append]
      by_cases carriage : c = '\r'
      · subst carriage
        have feed := @templated_head '\n' (by simp) s t
        rw [template_carriage, ih, Option.map_some, if_pos rfl]
        simp only [feed]
        split <;> rfl
      · rw [if_neg carriage, template_plain ⟨fun same => plain (.inl same), fun same =>
          plain (.inr (.inl same))⟩ (fun opened => plain (.inr (.inr ⟨opened.1,
            (templated_head (by simp) s t).mp opened.2⟩))) carriage, ih, Option.map_some]

theorem carriage_absent (s : List Char) : '\r' ∉ lineFed s := by
  induction s with
  | nil => exact List.not_mem_nil
  | cons c s ih =>
    rw [lineFed]
    split
    · split
      · exact ih
      · simpa using ih
    · rename_i other
      simpa [Ne.symm other] using ih

theorem line_fed_eq_self_iff {s : List Char} : lineFed s = s ↔ '\r' ∉ s := by
  refine ⟨fun same => same ▸ carriage_absent s, fun absent => ?_⟩
  induction s with
  | nil => rfl
  | cons c s ih =>
    obtain ⟨other, later⟩ := not_or.mp (mt List.mem_cons.mpr absent)
    rw [lineFed, if_neg (Ne.symm other), ih later]

end TypeScript

/-! Prisma -/

section Prisma
variable {escapes : Char → List Char → Option (Char × Nat)}

theorem prisma_plain {c : Char} (t : List Char) (mark : c ≠ '\\' ∧ c ≠ '"')
    (line : ¬ (c = '\n' ∨ c = '\r')) :
    (prismaString escapes).read 0 (c :: t) =
      ((prismaString escapes).read 0 t).map fun (rest, after) => (c :: rest, after) := by
  refine LiteralSyntax.read_plain mark.2 ?_
  change (if c = '\\' then _ else if c = '\n' ∨ c = '\r' then _ else _) = _
  rw [if_neg mark.1, if_neg line]

theorem prisma_escape {c : Char} (mark : c = '\\' ∨ c = '"') (t : List Char) :
    (prismaString escapes).read 0 (['\\', c] ++ t) =
      ((prismaString escapes).read 0 t).map fun (rest, after) => (c :: rest, after) := by
  rcases mark with rfl | rfl <;> rfl

/-- A text whose quotes alone are escaped is read back where it needs no other escape. -/
theorem quotes_read {s : List Char} (t : List Char)
    (plain : ∀ c ∈ s, c ∉ ['\\', '\n', '\r']) :
    (prismaString escapes).read 0 (replace ['"'] ['\\', '"'] s ++ '"' :: t) = some (s, t) := by
  rw [replace_one]
  induction s with
  | nil => rfl
  | cons c s ih =>
    obtain ⟨here, later⟩ := List.forall_mem_cons.mp plain
    have ih := ih later
    rw [List.flatMap_cons, List.append_assoc]
    split
    · rename_i mark
      rw [mark, prisma_escape (.inr rfl), ih, Option.map_some]
    · rename_i mark
      simp only [List.mem_cons, List.not_mem_nil, or_false, not_or] at here
      rw [List.singleton_append, prisma_plain _ ⟨here.1, mark⟩ (not_or.mpr here.2), ih,
        Option.map_some]

def prismaCost (c : Char) : Nat := if c ∈ ['"', '\\', '\n', '\r'] then 2 else 1

theorem prisma_cost_le (c : Char) : prismaCost c ≤ 2 := by
  unfold prismaCost
  split <;> omega

/-- An escape stands for one character, and is written with two at least. -/
theorem prisma_cost_bounded (c : Char) (s value : List Char) (more : Nat) (within : c ≠ '"')
    (here : (prismaString escapes).value c s = some (value, more)) :
    (value.map prismaCost).sum ≤ more + 1 := by
  have single : ∀ d more, (value, more + 1) = ([d], more + 1) →
      (value.map prismaCost).sum ≤ more + 1 + 1 := by
    intro d more same
    have bound := prisma_cost_le d
    rw [(Prod.mk.inj same).1, List.map_singleton, List.sum_singleton]
    omega
  simp only [prismaString] at here
  split at here
  · split at here
    · cases here
    all_goals first | (cases here; exact single _ 0 rfl) | skip
    obtain ⟨⟨d, rest⟩, -, same⟩ := Option.map_eq_some_iff.mp here
    cases same
    exact single d rest rfl
  · rename_i slash
    split at here
    · cases here
    · rename_i line
      cases here
      simp [prismaCost, slash, within, not_or.mp line]

theorem quotes_read_iff (s t : List Char) :
    (prismaString escapes).read 0 (replace ['"'] ['\\', '"'] s ++ '"' :: t) = some (s, t) ↔
      ∀ c ∈ s, c ∉ ['\\', '\n', '\r'] := by
  refine ⟨fun found c mem special => ?_, quotes_read t⟩
  have cost := LiteralSyntax.read_cost prisma_cost_bounded _ _ _ _ found
  have written : (s.map fun d => (if d = '"' then ['\\', '"'] else [d]).length).sum <
      (s.map prismaCost).sum := by
    refine List.sum_lt_sum _ _ (fun d _ => ?_) ⟨c, mem, ?_⟩
    · unfold prismaCost
      split
      · rename_i quote
        simp [quote]
      · split <;> simp
    · simp only [List.mem_cons, List.not_mem_nil, or_false] at special
      rcases special with rfl | rfl | rfl <;> decide
  rw [replace_one, List.length_append, List.length_flatMap, List.length_cons] at cost
  omega

theorem replace_slashes (s : List Char) :
    replace ['"'] ['\\', '"'] (replace ['\\'] ['\\', '\\'] s) =
      s.flatMap fun c => if c = '\\' ∨ c = '"' then ['\\', c] else [c] := by
  rw [replace_one, replace_one, List.flatMap_assoc]
  refine List.flatMap_congr fun c _ => ?_
  by_cases slash : c = '\\'
  · simp [slash]
  · by_cases quote : c = '"' <;> simp [slash, quote]

theorem escaped_read (s t : List Char) :
    (prismaString escapes).read 0
        (replace ['"'] ['\\', '"'] (replace ['\\'] ['\\', '\\'] s) ++ '"' :: t) =
      if '\n' ∈ s ∨ '\r' ∈ s then none else some (s, t) := by
  rw [replace_slashes]
  induction s with
  | nil => rfl
  | cons c s ih =>
    rw [List.flatMap_cons, List.append_assoc]
    by_cases mark : c = '\\' ∨ c = '"'
    · have other : c ≠ '\n' ∧ c ≠ '\r' := by rcases mark with rfl | rfl <;> simp
      rw [if_pos mark, prisma_escape mark, ih]
      simp only [List.mem_cons, Ne.symm other.1, Ne.symm other.2, false_or]
      split <;> rfl
    · rw [if_neg mark, List.singleton_append]
      by_cases line : c = '\n' ∨ c = '\r'
      · have ended : '\n' ∈ c :: s ∨ '\r' ∈ c :: s := by rcases line with rfl | rfl <;> simp
        rw [if_pos ended, LiteralSyntax.read_refused (not_or.mp mark).2]
        exact (if_neg (not_or.mp mark).1).trans (if_pos line)
      · rw [prisma_plain _ (not_or.mp mark) line, ih]
        obtain ⟨feed, carriage⟩ := not_or.mp line
        simp only [List.mem_cons, Ne.symm feed, Ne.symm carriage, false_or]
        split <;> rfl

end Prisma

/-! Quoted literals -/

theorem mem_doubled {c : Char} {s : List Char} : c ∈ doubled '\'' s ↔ c ∈ s := by
  simp only [doubled, List.mem_flatMap]
  constructor
  · rintro ⟨d, mem, here⟩
    split at here
    · rename_i quote
      simp only [List.mem_cons, List.not_mem_nil, or_false, or_self] at here
      rwa [here, ← quote]
    · rwa [List.mem_singleton.mp here]
  · intro mem
    refine ⟨c, mem, ?_⟩
    split
    · rename_i quote
      simp [quote]
    · simp

theorem mem_quote {c : Char} {s : List Char} (other : c ≠ '\'') : c ∈ quote '\'' s ↔ c ∈ s := by
  rw [quote_doubled, List.mem_append, List.mem_cons, mem_doubled]
  simp [other]

theorem unquote_quote (s : List Char) : unquote (quote '\'' s) = doubled '\'' s := by
  rw [quote_doubled, unquote, List.cons_append, stripPair]
  simp

theorem quote_word (s : List Char) :
    ¬ (quote '\'' s = "true".toList ∨ quote '\'' s = "false".toList) := by
  rintro (same | same) <;> simp [quote] at same

theorem quote_head (s : List Char) : (quote '\'' s).head? = some '\'' := rfl

section Rendered
variable (unicode : Unicode) (value : List Char) {colType : ColumnType}

theorem default_chain_literal (textual : TextColumn colType) (dialect : DrizzleDialect)
    (silent : MentionsNone unicode value ["gen_random_uuid()"]) :
    defaultChain unicode (quote '\'' value) colType dialect =
      if '(' ∈ value then .tagged (quote '\'' value) else .plain (stringLiteral value) := by
  have bracket : '(' ∈ quote '\'' value ↔ '(' ∈ value := mem_quote (by decide)
  have json : colType ≠ .simple .json := by rintro rfl; cases textual
  have generator := silent.2 _ List.mem_cons_self
  simp only [defaultChain, quote_word, silent.1, generator, json, bracket, quote_head, unquote_quote,
    replace_doubled]
  simp

theorem prisma_default_literal (textual : TextColumn colType)
    (silent : MentionsNone unicode value prismaUuidSpellings) :
    prismaDefaultAttr unicode (quote '\'' value) colType =
      if '(' ∈ value then dbgenerated (quote '\'' value)
      else prismaDefault ('"' :: replace ['"'] ['\\', '"']
        (replace ['\\'] ['\\', '\\'] (doubled '\'' value)) ++ ['"']) := by
  have bracket : '(' ∈ quote '\'' value ↔ '(' ∈ value := mem_quote (by decide)
  have generators : prismaUuidSpellings.any
      (contains (unicode.toLowercase (quote '\'' value)) ·.toList) = false :=
    List.any_eq_false.mpr fun call mem => Bool.eq_false_iff.mp (silent.2 call mem)
  cases textual <;>
    simp only [prismaDefaultAttr, quote_word, silent.1, generators, bracket, quote_head, unquote_quote] <;>
    simp

end Rendered

/-! What the targets read -/

section Read
variable {escapes : Char → List Char → Option (Char × Nat)}

theorem read_call_iff {l : LiteralSyntax} {body value : List Char} (opening closing : List Char) :
    readCall l opening closing (opening ++ body) = some value ↔
      l.read 0 body = some (value, closing) := by
  rw [readCall, after_append, Option.bind_some]
  cases l.read 0 body with
  | none => simp
  | some found =>
    obtain ⟨text, rest⟩ := found
    by_cases closed : rest = closing <;> simp [closed]

theorem quoted_argument (opening body closing : List Char) :
    opening ++ ('"' :: body ++ ['"']) ++ closing =
      (opening ++ ['"']) ++ (body ++ '"' :: closing) := by
  simp

theorem read_tagged (expr : List Char) : readDrizzle escapes (DefaultChain.tagged expr).text =
    some (.sql (lineFed expr)) := by
  have found := @template_read escapes expr ")".toList
  rw [← escape_backtick_eq] at found
  have chain : (DefaultChain.tagged expr).text =
      ".default(sql`".toList ++ (escapeBacktick expr ++ '`' :: ")".toList) :=
    List.append_assoc _ _ _
  rw [readDrizzle, chain, (read_call_iff _ _).mpr found]
  rfl

theorem read_literal (value : List Char) :
    readDrizzle escapes (DefaultChain.plain (stringLiteral value)).text = some (.text value) := by
  have found := @string_literal_read escapes value ")".toList
  have opening : ".default(".toList ++ ['"'] = ".default(\"".toList := by decide
  have chain : (DefaultChain.plain (stringLiteral value)).text =
      ".default(\"".toList ++ (value.flatMap stringChar ++ '"' :: ")".toList) :=
    opening ▸ quoted_argument _ _ _
  have template : readCall (tsTemplate escapes) ".default(sql`".toList ")".toList
      (".default(\"".toList ++ (value.flatMap stringChar ++ '"' :: ")".toList)) = none := rfl
  rw [readDrizzle, chain, template, (read_call_iff _ _).mpr found]
  rfl

theorem tagged_denotes (value expr : List Char) :
    Denotes value (readDrizzle escapes (DefaultChain.tagged expr).text) ↔
      lineFed expr = quote '\'' value := by
  simp [Denotes, read_tagged]

theorem dbgenerated_denotes (value : List Char) :
    Denotes value (readPrisma escapes (dbgenerated (quote '\'' value))) ↔
      '\n' ∉ value ∧ '\r' ∉ value ∧ '\\' ∉ value := by
  have found := @quotes_read_iff escapes (quote '\'' value) "))".toList
  have opening : "@default(".toList ++ "dbgenerated(\"".toList = "@default(dbgenerated(\"".toList := by
    decide
  have closing : "\")".toList ++ ")".toList = '"' :: "))".toList := by decide
  have chain : dbgenerated (quote '\'' value) = "@default(dbgenerated(\"".toList ++
      (replace ['"'] ['\\', '"'] (quote '\'' value) ++ '"' :: "))".toList) := by
    rw [← opening, ← closing]
    change _ ++ (_ ++ _ ++ _) ++ _ = _
    simp only [List.append_assoc]
  have other : readCall (prismaString escapes) "@default(\"".toList ")".toList
      ("@default(dbgenerated(\"".toList ++
        (replace ['"'] ['\\', '"'] (quote '\'' value) ++ '"' :: "))".toList)) = none := rfl
  have read : Denotes value (readPrisma escapes (dbgenerated (quote '\'' value))) ↔
      readCall (prismaString escapes) "@default(dbgenerated(\"".toList "))".toList
        ("@default(dbgenerated(\"".toList ++ (replace ['"'] ['\\', '"'] (quote '\'' value) ++
          '"' :: "))".toList)) = some (quote '\'' value) := by
    rw [readPrisma, chain, other]
    cases readCall (prismaString escapes) "@default(dbgenerated(\"".toList "))".toList _ <;>
      simp [Denotes]
  rw [read, read_call_iff, found]
  constructor
  · intro plain
    have absent : ∀ c ∈ ['\\', '\n', '\r'], c ≠ '\'' → c ∉ value := fun c special other mem =>
      plain c ((mem_quote other).mpr mem) special
    exact ⟨absent _ (by simp) (by simp), absent _ (by simp) (by simp), absent _ (by simp) (by simp)⟩
  · rintro ⟨feed, carriage, slash⟩ c mem special
    simp only [List.mem_cons, List.not_mem_nil, or_false] at special
    rcases special with rfl | rfl | rfl
    · exact slash ((mem_quote (by simp)).mp mem)
    · exact feed ((mem_quote (by simp)).mp mem)
    · exact carriage ((mem_quote (by simp)).mp mem)

theorem prisma_literal_denotes (value : List Char) :
    Denotes value (readPrisma escapes (prismaDefault ('"' :: replace ['"'] ['\\', '"']
        (replace ['\\'] ['\\', '\\'] (doubled '\'' value)) ++ ['"']))) ↔
      '\n' ∉ value ∧ '\r' ∉ value ∧ '\'' ∉ value := by
  have opening : "@default(".toList ++ ['"'] = "@default(\"".toList := by decide
  have chain : prismaDefault ('"' :: replace ['"'] ['\\', '"']
        (replace ['\\'] ['\\', '\\'] (doubled '\'' value)) ++ ['"']) =
      "@default(\"".toList ++ (replace ['"'] ['\\', '"']
        (replace ['\\'] ['\\', '\\'] (doubled '\'' value)) ++ '"' :: ")".toList) :=
    opening ▸ quoted_argument _ _ _
  have other : readCall (prismaString escapes) "@default(dbgenerated(\"".toList "))".toList
      ("@default(\"".toList ++ (replace ['"'] ['\\', '"']
        (replace ['\\'] ['\\', '\\'] (doubled '\'' value)) ++ '"' :: ")".toList)) = none := rfl
  have read : Denotes value (readPrisma escapes (prismaDefault ('"' :: replace ['"'] ['\\', '"']
        (replace ['\\'] ['\\', '\\'] (doubled '\'' value)) ++ ['"']))) ↔
      readCall (prismaString escapes) "@default(\"".toList ")".toList
        ("@default(\"".toList ++ (replace ['"'] ['\\', '"']
          (replace ['\\'] ['\\', '\\'] (doubled '\'' value)) ++ '"' :: ")".toList)) =
        some value := by
    rw [readPrisma, chain, other]
    cases readCall (prismaString escapes) "@default(\"".toList ")".toList _ <;> simp [Denotes]
  rw [read, read_call_iff, escaped_read, ← and_assoc, ← not_or, ← doubled_eq_self_iff]
  simp only [mem_doubled]
  by_cases line : '\n' ∈ value ∨ '\r' ∈ value <;> simp [line]

end Read

section Lost
variable {escapes : Char → List Char → Option (Char × Nat)} {unicode : Unicode}
  {value : List Char} {colType : ColumnType}

theorem other_expression {expr : List Char} (start : (lineFed expr).head? ≠ some '\'') :
    ¬ Denotes value (readDrizzle escapes (DefaultChain.tagged expr).text) := by
  rw [tagged_denotes]
  intro same
  exact start (same ▸ quote_head value)

theorem drizzle_mentions (dialect : DrizzleDialect)
    (mentions : ¬ MentionsNone unicode value ["gen_random_uuid()"]) :
    ¬ Denotes value (readDrizzle escapes
      (defaultChain unicode (quote '\'' value) colType dialect).text) := by
  simp only [defaultChain, if_neg (quote_word value)]
  cases time : isCurrentTime (unicode.toLowercase (quote '\'' value)) with
  | true =>
    cases dialect with
    | pg => exact other_expression (by decide)
    | mysql => exact fun denotes => by rcases denotes with same | same <;> cases same
    | sqlite => exact other_expression (by decide)
  | false =>
    have generator : contains (unicode.toLowercase (quote '\'' value))
        "gen_random_uuid()".toList = true := by
      simpa [MentionsNone, time] using mentions
    simp only [generator, Bool.false_eq_true, if_false, if_true]
    cases dialect with
    | pg => exact fun denotes => by rcases denotes with same | same <;> cases same
    | mysql => exact other_expression (by decide)
    | sqlite => exact other_expression (by decide)

theorem prisma_mentions (textual : TextColumn colType)
    (mentions : ¬ MentionsNone unicode value prismaUuidSpellings) :
    ¬ Denotes value (readPrisma escapes (prismaDefaultAttr unicode (quote '\'' value) colType)) := by
  have call : prismaDefaultAttr unicode (quote '\'' value) colType =
        prismaDefault "now()".toList ∨
      prismaDefaultAttr unicode (quote '\'' value) colType = prismaDefault "uuid()".toList := by
    cases time : isCurrentTime (unicode.toLowercase (quote '\'' value)) with
    | true =>
      cases textual <;> simp only [prismaDefaultAttr, quote_word, time, if_true, if_false, true_or]
    | false =>
      have generators : prismaUuidSpellings.any
          (contains (unicode.toLowercase (quote '\'' value)) ·.toList) = true := by
        simpa [MentionsNone, time] using mentions
      cases textual <;> simp only [prismaDefaultAttr, quote_word, time, generators,
        Bool.false_eq_true, if_true, if_false, or_true]
  rcases call with same | same <;> rw [same] <;>
    exact fun denotes => by rcases denotes with same | same <;> cases same

end Lost

/-- The defaults that are kept: those that mention no call and whose characters survive the
    quoting of the target. -/
theorem string_defaults_kept_iff (escapes : Char → List Char → Option (Char × Nat))
    (unicode : Unicode) (value : List Char) {colType : ColumnType} (textual : TextColumn colType) :
    (∀ dialect, Denotes value (readDrizzle escapes
      (defaultChain unicode (quote '\'' value) colType dialect).text) ↔
        DrizzleSafe unicode value) ∧
    (Denotes value (readPrisma escapes (prismaDefaultAttr unicode (quote '\'' value) colType)) ↔
      PrismaSafe unicode value) := by
  constructor
  · intro dialect
    rw [DrizzleSafe]
    by_cases silent : MentionsNone unicode value ["gen_random_uuid()"]
    · rw [default_chain_literal unicode value textual dialect silent, and_iff_right silent]
      by_cases bracket : '(' ∈ value
      · rw [if_pos bracket, tagged_denotes, line_fed_eq_self_iff, mem_quote (by decide)]
        exact (imp_iff_right bracket).symm
      · rw [if_neg bracket, read_literal]
        exact ⟨fun _ here => absurd here bracket, fun _ => .inl rfl⟩
    · exact iff_of_false (drizzle_mentions dialect silent) (mt And.left silent)
  · rw [PrismaSafe]
    by_cases silent : MentionsNone unicode value prismaUuidSpellings
    · rw [prisma_default_literal unicode value textual silent, and_iff_right silent]
      by_cases bracket : '(' ∈ value
      · rw [if_pos bracket, if_pos bracket, dbgenerated_denotes]
      · rw [if_neg bracket, if_neg bracket, prisma_literal_denotes]
    · exact iff_of_false (prisma_mentions textual silent) (mt And.left silent)

/-! A default of ASCII letters, and two that are lost -/

def asciiTables : Unicode :=
  ⟨fun s => s.map Char.toLower, Char.isUpper, Char.isLower, Char.isAlphanum⟩

def hexValue (c : Char) : Option Nat :=
  if c.isDigit then some (c.toNat - '0'.toNat)
  else if 'a' ≤ c.toLower ∧ c.toLower ≤ 'f' then some (c.toLower.toNat - 'a'.toNat + 10)
  else none

def hexEscape (e : Char) (s : List Char) : Option (Char × Nat) :=
  if e = 'u' ∧ 4 ≤ s.length then
    ((s.take 4).mapM hexValue).map fun digits => (Char.ofNat (digits.foldl (16 * · + ·) 0), 4)
  else none

theorem draft_kept : (∀ dialect, Denotes "draft".toList (readDrizzle hexEscape
      (defaultChain asciiTables (quote '\'' "draft".toList) (.simple .text) dialect).text)) ∧
    Denotes "draft".toList (readPrisma hexEscape
      (prismaDefaultAttr asciiTables (quote '\'' "draft".toList) (.simple .text))) := by
  have kept := string_defaults_kept_iff hexEscape asciiTables "draft".toList .text
  exact ⟨fun dialect => (kept.1 dialect).mpr (by decide), kept.2.mpr (by decide)⟩

theorem texts_lost :
    (defaultChain asciiTables (quote '\'' "now()".toList) (.simple .text) .pg).text =
      ".default(sql`CURRENT_TIMESTAMP`)".toList ∧
    ¬ Denotes "now()".toList (readDrizzle hexEscape
      (defaultChain asciiTables (quote '\'' "now()".toList) (.simple .text) .pg).text) ∧
    prismaDefaultAttr asciiTables (quote '\'' "it's".toList) (.simple .text) =
      "@default(\"it''s\")".toList ∧
    ¬ Denotes "it's".toList (readPrisma hexEscape
      (prismaDefaultAttr asciiTables (quote '\'' "it's".toList) (.simple .text))) := by
  decide

end Vespertide.ExportedDefaults
