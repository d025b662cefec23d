import Vespertide.EnumLiteral

/-!
Quoting as it is written: a text without the quote is copied as it is, any other
is cut at its quotes. Both come to the text with its quotes doubled, and reading
that back gives the text again.
-/
namespace Vespertide

/-! Quoting into a buffer -/

/-- `str::replace`: the pieces between the quotes are copied one after the other. -/
def replaceQuotes (delim : Char) (text : String) : String :=
  String.ofList ([delim, delim].intercalate (text.toList.splitOn delim))

def quoteIdentInto (out name : String) (backend : DatabaseBackend) : String :=
  let delim := quoteDelimiter backend
  if delim ∉ name.toList then ((out.push delim) ++ name).push delim
  else ((out.push delim) ++ replaceQuotes delim name).push delim

/-- A text that is lent as it is, or one that was made. -/
inductive Cow where
  | borrowed (text : String)
  | owned (text : String)
  deriving DecidableEq, Repr

def Cow.text : Cow → String
  | .borrowed text => text
  | .owned text => text

def escapeSqlStringLiteralCow (s : String) : Cow :=
  if '\'' ∈ s.toList then .owned (replaceQuotes '\'' s) else .borrowed s

def pushSqlValue (separator out : String) : String × Nat → String
  | (s, i) =>
      (((if 0 < i then out ++ separator else out).push '\'') ++
        (escapeSqlStringLiteralCow s).text).push '\''

def sqlValuesWritten (values : List String) (separator : String) : String :=
  values.zipIdx.foldl (pushSqlValue separator) ""

/-! Reading back -/

/-- The outer quotes are stripped and the inner ones halved; a quote without its
    partner is no part of a name. -/
def readIdent (backend : DatabaseBackend) (quoted : String) : Option String :=
  let delim := quoteDelimiter backend
  match quoted.toList with
  | first :: rest =>
      if first = delim ∧ rest.getLast? = some delim then
        (Text.halve delim rest.dropLast).map String.ofList
      else none
  | [] => none

def readSqlValues (joined : String) : Option (List String) :=
  if joined = "" then some []
  else (Text.splitLiterals '\'' ',' .opening [] joined.toList).map (·.map String.ofList)

/-! What is written -/

theorem replace_quotes (delim : Char) (text : String) :
    (replaceQuotes delim text).toList = Text.doubled delim text.toList := by
  rw [replaceQuotes, String.toList_ofList, Text.doubled_split]

theorem quote_ident_into_eq (out name : String) (backend : DatabaseBackend) :
    quoteIdentInto out name backend = out ++ quoteIdent name backend := by
  have quoted : (quoteIdent name backend).toList =
      Text.quote (quoteDelimiter backend) name.toList := String.toList_ofList
  rw [← String.toList_inj, String.toList_append, quoted, Text.quote_doubled, quoteIdentInto]
  split
  · rename_i absent
    simp [Text.doubled_eq_self_iff.mpr absent]
  · simp [replace_quotes]

theorem escape_cow_eq (s : String) :
    (escapeSqlStringLiteralCow s).text = escapeSqlStringLiteral s := by
  rw [escapeSqlStringLiteralCow]
  split
  · rw [← String.toList_inj, Cow.text, replace_quotes, escape_characters]
  · rename_i absent
    exact (escape_eq_self_iff.mpr absent).symm

theorem push_value (separator out s : String) (i : Nat) :
    pushSqlValue separator out (s, i) =
      (if 0 < i then out ++ separator else out) ++ sqlLiteral s := by
  rw [pushSqlValue, escape_cow_eq, ← String.toList_inj]
  simp [sqlLiteral]

theorem intercalate_cons (separator text : List Char) (texts : List (List Char)) :
    separator.intercalate (text :: texts) = text ++ texts.flatMap (separator ++ ·) := by
  induction texts generalizing text with
  | nil => simp
  | cons next texts ih => simp [List.intercalate_cons_cons, ih]

theorem values_pushed (separator out : String) (i : Nat) (values : List String) :
    ((values.zipIdx (i + 1)).foldl (pushSqlValue separator) out).toList =
      out.toList ++ (values.map fun s => Text.quote '\'' s.toList).flatMap
        (separator.toList ++ ·) := by
  induction values generalizing out i with
  | nil => simp
  | cons s values ih =>
    rw [List.zipIdx_cons, List.foldl_cons, ih, push_value, if_pos (Nat.succ_pos i)]
    simp [literal_characters]

theorem values_written_eq (values : List String) (separator : String) :
    sqlValuesWritten values separator = (EnumValues.string values).sqlValuesJoined separator := by
  rw [← String.toList_inj, values_characters]
  cases values with
  | nil => rfl
  | cons s values =>
    rw [sqlValuesWritten, List.zipIdx_cons, List.foldl_cons, Nat.zero_add,
      show 1 = 0 + 1 from rfl, values_pushed, push_value, if_neg (lt_irrefl 0), List.map_cons,
      List.map_cons, intercalate_cons]
    simp [literal_characters, Function.comp_def]

/-! What is read -/

theorem read_quoted (s : String) (backend : DatabaseBackend) :
    readIdent backend (quoteIdent s backend) = some s := by
  have quoted : (quoteIdent s backend).toList =
      quoteDelimiter backend :: (Text.doubled (quoteDelimiter backend) s.toList ++
        [quoteDelimiter backend]) := String.toList_ofList
  rw [readIdent, quoted]
  simp [Text.halve_doubled]

theorem read_values (values : List String) :
    readSqlValues ((EnumValues.string values).sqlValuesJoined ", ") = some values := by
  have characters := values_characters values ", "
  cases values with
  | nil => rfl
  | cons s values =>
    rw [List.map_cons] at characters
    have blank : ∀ c ∈ [' '], Text.isWhitespace c = true := by
      intro c mem
      obtain rfl := List.mem_singleton.mp mem
      rfl
    have read := @Text.split_joined '\'' ',' (by decide) (by decide) [' '] blank s.toList
      (values.map String.toList)
    have written : (EnumValues.string (s :: values)).sqlValuesJoined ", " ≠ "" := by
      intro empty
      rw [empty, List.map_cons, intercalate_cons, Text.quote] at characters
      simp at characters
    rw [readSqlValues, if_neg written, characters]
    simp only [String.reduceToList] at read ⊢
    rw [read]
    simp [Function.comp_def]

/-- Every name is read back from its quoted text, and every list of labels from its
    literals. -/
theorem quoting_lossless :
    (∀ (s : String) (backend : DatabaseBackend),
      readIdent backend (quoteIdentInto "" s backend) = some s) ∧
    ∀ values : List String, readSqlValues (sqlValuesWritten values ", ") = some values := by
  constructor
  · intro s backend
    rw [quote_ident_into_eq, String.empty_append, read_quoted]
  · intro values
    rw [values_written_eq, read_values]

end Vespertide
