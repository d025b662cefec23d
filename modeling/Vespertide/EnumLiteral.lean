import Vespertide.ActionQueries
import Vespertide.EnumDefaults
import Vespertide.CheckExpr
import Vespertide.Support.Literals

/-!
The default of a string enum, as the validator reads it and as it is rendered.
The two agree where the text is the literal of its label already, or is a label
without quotes that the renderer takes for a plain word.
-/
namespace Vespertide

/-- A value of an integer enum may be given by its number or by its name. -/
def EnumValues.containsValue (values : EnumValues) (value : String) : Bool :=
  match values with
  | .string variants => variants.any (· = value)
  | .integer variants =>
      match parseI64 value.toList with
      | none => variants.any (·.name = value)
      | some n => variants.any (·.value = n)

def EnumValues.variantNames : EnumValues → List String
  | .string variants => variants
  | .integer variants => variants.map (·.name)

structure InvalidEnumDefaultError where
  enumName : String
  tableName : String
  columnName : String
  valueType : String
  value : String
  allowed : String
  deriving DecidableEq, Repr

section Validation
variable (enumName tableName columnName valueType : String)

def validateEnumValue (value : String) (enumValues : EnumValues) :
    Except InvalidEnumDefaultError Unit :=
  match extractEnumValue value with
  | none => .ok ()
  | some extracted =>
      if enumValues.containsValue extracted then .ok ()
      else .error ⟨enumName, tableName, columnName, valueType, extracted,
        ", ".intercalate enumValues.variantNames⟩

def sqlLiteral (label : String) : String := "'" ++ escapeSqlStringLiteral label ++ "'"

/-- The label that an accepted default stands for: the one the validator
    recognised, or where it recognised none the one the text spells. -/
def AcceptedAs (values : List String) (text label : String) : Prop :=
  validateEnumValue enumName tableName columnName valueType text (.string values) = .ok () ∧
    label ∈ values ∧
    (extractEnumValue text = some label ∨
      extractEnumValue text = none ∧ (text = label ∨ text = sqlLiteral label))

instance (values : List String) (text label : String) :
    Decidable (AcceptedAs enumName tableName columnName valueType values text label) :=
  inferInstanceAs (Decidable (_ ∧ _))

end Validation

/-- A text without brackets that begins with no quote and is no keyword. -/
def PlainWord (text : String) : Prop :=
  let trimmed := Text.trim text.toList
  trimmed.head? ≠ some '\'' ∧ trimmed.head? ≠ some '"' ∧ '(' ∉ trimmed ∧ ')' ∉ trimmed ∧
    ∀ keyword ∈ ["null", "current_timestamp", "current_date", "current_time"],
      Text.eqIgnoreAsciiCase trimmed keyword.toList = false

instance (text : String) : Decidable (PlainWord text) := inferInstanceAs (Decidable (_ ∧ _))

/-! The literal -/

theorem literal_characters (label : String) :
    (sqlLiteral label).toList = Text.quote '\'' label.toList := by
  simp [sqlLiteral, escapeSqlStringLiteral, Text.quote]

theorem values_characters (labels : List String) (separator : String) :
    ((EnumValues.string labels).sqlValuesJoined separator).toList =
      separator.toList.intercalate ((labels.map String.toList).map (Text.quote '\'')) := by
  have literals : labels.map (String.toList ∘ sqlLiteral) =
      labels.map (Text.quote '\'' ∘ String.toList) :=
    List.map_congr_left fun label _ => literal_characters label
  change (separator.intercalate (labels.map sqlLiteral)).toList = _
  rw [String.toList_intercalate, List.map_map, literals, List.map_map]

theorem escape_characters (label : String) :
    (escapeSqlStringLiteral label).toList = Text.doubled '\'' label.toList := by
  simp [escapeSqlStringLiteral, Text.doubled]

theorem escape_eq_self_iff {label : String} :
    escapeSqlStringLiteral label = label ↔ '\'' ∉ label.toList := by
  rw [← String.toList_inj, escape_characters, Text.doubled_eq_self_iff]

/-! The renderer -/

theorem needs_quoting_iff (text : String) : needsQuoting text = true ↔ PlainWord text := by
  unfold needsQuoting PlainWord
  simp only
  split
  · rename_i empty
    simp [empty, Text.eqIgnoreAsciiCase]
  · split
    · rename_i quoted
      rcases quoted with quoted | quoted <;> simp [quoted]
    · rename_i unquoted
      obtain ⟨single, double⟩ := not_or.mp unquoted
      split
      · rename_i brackets
        rcases brackets with brackets | brackets <;> simp [brackets]
      · rename_i bare
        obtain ⟨opening, closing⟩ := not_or.mp bare
        simp [single, double, opening, closing]

theorem literal_not_quoted (label : String) : ¬ PlainWord (sqlLiteral label) := by
  rintro ⟨single, _⟩
  rw [literal_characters, Text.trim_quote (by decide)] at single
  simp [Text.quote] at single

theorem normalize_enum_default_eq (enumName : String) (values : EnumValues) (text : String) :
    normalizeEnumDefault (.complex (.enum enumName values)) text =
      if PlainWord text then "'" ++ text ++ "'" else text := by
  simp only [normalizeEnumDefault, ColumnType.isEnum, true_and, needs_quoting_iff]

/-- What is rendered is the literal exactly where the text is the literal, or is
    put into quotes and has its quotes doubled already. -/
theorem rendered_literal_iff (enumName : String) (values : EnumValues) (text label : String) :
    normalizeEnumDefault (.complex (.enum enumName values)) text = sqlLiteral label ↔
      text = sqlLiteral label ∨ PlainWord text ∧ text = escapeSqlStringLiteral label := by
  rw [normalize_enum_default_eq]
  split
  · rename_i plain
    have other : text ≠ sqlLiteral label := by
      rintro rfl
      exact literal_not_quoted label plain
    simp only [other, plain, false_or, true_and]
    simp [sqlLiteral]
  · rename_i kept
    simp [kept]

theorem extract_plain {text label : String} (plain : PlainWord text)
    (read : extractEnumValue text = some label) :
    label.toList = Text.trim text.toList := by
  obtain ⟨single, double, _⟩ := plain
  unfold extractEnumValue at read
  simp only [single, double, false_and, or_false, ↓reduceIte] at read
  split at read
  · simp at read
  · split at read
    · simp at read
    · simp [← Option.some.inj read]

/-- Doubling moves no end of a trimmed label, so only a label without quotes is
    spelled by its doubled text. -/
theorem read_doubled {text label : String} (plain : PlainWord text)
    (read : extractEnumValue text = some label) (spelled : text = escapeSqlStringLiteral label) :
    text = label := by
  have own := extract_plain plain read
  have doubled : text.toList = Text.doubled '\'' (Text.trim text.toList) := by
    rw [← own, ← escape_characters, ← spelled]
  have tight := Text.trim_doubled '\'' text.toList
  rw [← doubled] at tight
  rw [← String.toList_inj, own, tight]

/-- The condition is on the text and its label alone. -/
theorem enum_default_exact (enumName tableName columnName valueType : String)
    (values : List String) (text label : String)
    (accepted : AcceptedAs enumName tableName columnName valueType values text label) :
    normalizeEnumDefault (.complex (.enum enumName (.string values))) text = sqlLiteral label ↔
      text = sqlLiteral label ∨ text = label ∧ '\'' ∉ text.toList ∧ PlainWord text := by
  rw [rendered_literal_iff]
  obtain ⟨_, _, read⟩ := accepted
  constructor
  · rintro (literal | ⟨plain, spelled⟩)
    · exact .inl literal
    · have same : text = label := by
        rcases read with recognised | ⟨_, bare | literal⟩
        · exact read_doubled plain recognised spelled
        · exact bare
        · exact absurd plain (literal ▸ literal_not_quoted label)
      subst same
      exact .inr ⟨rfl, escape_eq_self_iff.mp spelled.symm, plain⟩
  · rintro (literal | ⟨rfl, unquoted, plain⟩)
    · exact .inl literal
    · exact .inr ⟨plain, (escape_eq_self_iff.mpr unquoted).symm⟩

theorem active_rendered :
    normalizeEnumDefault (.complex (.enum "mood" (.string ["active", "it's"]))) "active" =
      "'active'" :=
  (enum_default_exact "mood" "users" "mood" "default" ["active", "it's"] "active" "active"
    (by decide +kernel)).mpr (.inr (by decide +kernel))

/-- The quote of the label ends the literal. -/
theorem apostrophe_rendered_raw :
    ¬ ∀ (values : List String) (text label : String),
      AcceptedAs "mood" "users" "mood" "default" values text label →
        normalizeEnumDefault (.complex (.enum "mood" (.string values))) text =
          sqlLiteral label := by
  intro agree
  have rendered := agree ["active", "it's"] "it's" "it's" (by decide +kernel)
  revert rendered
  decide +kernel

end Vespertide
