import Mathlib.Data.ENat.Basic
import Vespertide.NarrowingExact

/-!
The type changes that are reported as narrowings, against the values of the two
types. A type of texts is its longest length, a type of whole numbers its two
ends, and a type of decimals its integer digits beside its decimal places.
-/
namespace Vespertide

inductive TypeFamily where
  | string
  | decimal
  | integer
  deriving DecidableEq, Repr

/-- The types with a bound on their values, and unbounded text. -/
def boundedFamily : ColumnType → Option TypeFamily
  | .simple .text | .complex (.char _) | .complex (.varchar _) => some .string
  | .complex (.numeric precision scale) => if scale ≤ precision then some .decimal else none
  | .simple .smallInt | .simple .integer | .simple .bigInt => some .integer
  | _ => none

def LosesValue (old new : ColumnType) : Prop := ∃ v : Value, v.Fits old ∧ ¬ v.Fits new

/-! Texts -/

def StringType (type : ColumnType) (limit : ℕ∞) : Prop :=
  ∀ v : Value, v.Fits type ↔ ∃ s, v = .text s ∧ (s.length : ℕ∞) ≤ limit

theorem text_type : StringType (.simple .text) ⊤ := by
  intro v
  cases v <;> simp [Value.Fits]

theorem varchar_type (length : Nat) : StringType (.complex (.varchar length)) length := by
  intro v
  cases v <;> simp [Value.Fits]

theorem char_type (length : Nat) : StringType (.complex (.char length)) length := by
  intro v
  cases v <;> simp [Value.Fits]

theorem StringType.loses_iff {old new : ColumnType} {limit limit' : ℕ∞}
    (from_type : StringType old limit) (to_type : StringType new limit') :
    LosesValue old new ↔ limit' < limit := by
  constructor
  · rintro ⟨v, fits, misfit⟩
    obtain ⟨s, rfl, short⟩ := (from_type v).mp fits
    by_contra roomy
    exact misfit ((to_type _).mpr ⟨s, rfl, short.trans (not_lt.mp roomy)⟩)
  · intro shorter
    -- a text one character longer than the new type allows
    lift limit' to ℕ using shorter.ne_top
    have long : (String.ofList (List.replicate (limit' + 1) 'a')).length = limit' + 1 := by
      rw [String.length_ofList, List.length_replicate]
    refine ⟨.text (String.ofList (List.replicate (limit' + 1) 'a')), ?_, ?_⟩
    · refine (from_type _).mpr ⟨_, rfl, ?_⟩
      rw [long]
      exact_mod_cast Order.add_one_le_of_lt shorter
    · intro fits
      obtain ⟨s, same, short⟩ := (to_type _).mp fits
      obtain rfl := Value.text.inj same
      rw [long] at short
      exact absurd (by exact_mod_cast short) (Nat.not_succ_le_self limit')

theorem string_family {type : ColumnType} (family : boundedFamily type = some .string) :
    type = .simple .text ∨ ∃ length, type = .complex (.varchar length) ∨
      type = .complex (.char length) := by
  unfold boundedFamily at family
  split at family
  · exact .inl rfl
  · exact .inr ⟨_, .inr rfl⟩
  · exact .inr ⟨_, .inl rfl⟩
  · simp at family
  all_goals cases family

theorem string_narrowing_iff {old new : ColumnType} (from_family : boundedFamily old = some .string)
    (to_family : boundedFamily new = some .string) :
    (isNarrowing old new).isSome ↔ LosesValue old new := by
  rcases string_family from_family with rfl | ⟨a, rfl | rfl⟩ <;>
    rcases string_family to_family with rfl | ⟨b, rfl | rfl⟩
  · rw [text_type.loses_iff text_type]
    simp [isNarrowing]
  · rw [text_type.loses_iff (varchar_type b)]
    simp [isNarrowing]
  · rw [text_type.loses_iff (char_type b)]
    simp [isNarrowing]
  · rw [(varchar_type a).loses_iff text_type]
    simp [isNarrowing]
  · rw [(varchar_type a).loses_iff (varchar_type b)]
    simp [isNarrowing]
  · rw [(varchar_type a).loses_iff (char_type b)]
    simp [isNarrowing]
  · rw [(char_type a).loses_iff text_type]
    simp [isNarrowing]
  · rw [(char_type a).loses_iff (varchar_type b)]
    simp [isNarrowing]
  · rw [(char_type a).loses_iff (char_type b)]
    simp [isNarrowing]

/-! Whole numbers -/

theorem IntegerType.loses_iff {old new : ColumnType} {low high low' high' : Int}
    (from_type : IntegerType old low high) (to_type : IntegerType new low' high')
    (inhabited : low ≤ high) : LosesValue old new ↔ low < low' ∨ high' < high := by
  constructor
  · rintro ⟨v, fits, misfit⟩
    obtain ⟨q, rfl, whole, least, most⟩ := (from_type v).mp fits
    by_contra within
    obtain ⟨above, below⟩ := not_or.mp within
    have above' : (low' : ℚ) ≤ low := by exact_mod_cast not_lt.mp above
    have below' : (high : ℚ) ≤ high' := by exact_mod_cast not_lt.mp below
    exact misfit ((to_type _).mpr ⟨q, rfl, whole, above'.trans least, most.trans below'⟩)
  · have inhabited' : (low : ℚ) ≤ high := by exact_mod_cast inhabited
    rintro (above | below)
    · refine ⟨.number low, (from_type _).mpr ⟨_, rfl, rfl, le_rfl, inhabited'⟩, fun fits => ?_⟩
      obtain ⟨q, same, -, least, -⟩ := (to_type _).mp fits
      obtain rfl := Value.number.inj same
      exact absurd (by exact_mod_cast least) (not_le.mpr above)
    · refine ⟨.number high, (from_type _).mpr ⟨_, rfl, rfl, inhabited', le_rfl⟩, fun fits => ?_⟩
      obtain ⟨q, same, -, -, most⟩ := (to_type _).mp fits
      obtain rfl := Value.number.inj same
      exact absurd (by exact_mod_cast most) (not_le.mpr below)

theorem integer_family {type : ColumnType} (family : boundedFamily type = some .integer) :
    type = .simple .smallInt ∨ type = .simple .integer ∨ type = .simple .bigInt := by
  unfold boundedFamily at family
  split at family
  case h_4 => simp at family
  case h_5 => exact .inl rfl
  case h_6 => exact .inr (.inl rfl)
  case h_7 => exact .inr (.inr rfl)
  all_goals cases family

theorem integer_narrowing_iff {old new : ColumnType}
    (from_family : boundedFamily old = some .integer)
    (to_family : boundedFamily new = some .integer) :
    (isNarrowing old new).isSome ↔ LosesValue old new := by
  rcases integer_family from_family with rfl | rfl | rfl
  · rcases integer_family to_family with rfl | rfl | rfl
    · rw [small_int_type.loses_iff small_int_type (by decide)]
      decide
    · rw [small_int_type.loses_iff integer_type (by decide)]
      decide
    · rw [small_int_type.loses_iff big_int_type (by decide)]
      decide
  · rcases integer_family to_family with rfl | rfl | rfl
    · rw [integer_type.loses_iff small_int_type (by decide)]
      decide
    · rw [integer_type.loses_iff integer_type (by decide)]
      decide
    · rw [integer_type.loses_iff big_int_type (by decide)]
      decide
  · rcases integer_family to_family with rfl | rfl | rfl
    · rw [big_int_type.loses_iff small_int_type (by decide)]
      decide
    · rw [big_int_type.loses_iff integer_type (by decide)]
      decide
    · rw [big_int_type.loses_iff big_int_type (by decide)]
      decide

/-! Decimals -/

theorem decimal_loses_iff {p1 s1 p2 s2 : Nat} (places : s1 ≤ p1) (places' : s2 ≤ p2) :
    LosesValue (.complex (.numeric p1 s1)) (.complex (.numeric p2 s2)) ↔
      s2 < s1 ∨ p2 - s2 < p1 - s1 := by
  constructor
  · rintro ⟨v, fits, misfit⟩
    obtain ⟨q, rfl, whole, bound⟩ := numeric_fits fits
    by_contra kept
    obtain ⟨finer, wider⟩ := not_or.mp kept
    exact misfit (Decimal.fits_of_finer bound (Decimal.scaled_mono (not_lt.mp finer) whole)
      (by omega))
  · rintro (loses | shrinks)
    · exact scale_misfit loses (by omega)
    · exact digits_misfit shrinks

theorem decimal_family {type : ColumnType} (family : boundedFamily type = some .decimal) :
    ∃ precision scale, type = .complex (.numeric precision scale) ∧ scale ≤ precision := by
  unfold boundedFamily at family
  split at family
  case h_4 precision scale =>
    exact ⟨precision, scale, rfl, (Option.ite_none_right_eq_some.mp family).1⟩
  all_goals cases family

theorem decimal_narrowing_iff {old new : ColumnType}
    (from_family : boundedFamily old = some .decimal)
    (to_family : boundedFamily new = some .decimal) :
    (isNarrowing old new).isSome ↔ LosesValue old new := by
  obtain ⟨p1, s1, rfl, places⟩ := decimal_family from_family
  obtain ⟨p2, s2, rfl, places'⟩ := decimal_family to_family
  rw [decimal_loses_iff places places', isNarrowing]
  by_cases loses : s2 < s1
  · simp [loses]
  · by_cases shrinks : p2 - s2 < p1 - s1 <;> simp [loses, shrinks]

/-! All families -/

theorem other_family {old new : ColumnType} {family family' : TypeFamily}
    (from_family : boundedFamily old = some family) (to_family : boundedFamily new = some family')
    (other : family ≠ family') : isNarrowing old new = none := by
  cases found : isNarrowing old new with
  | none => rfl
  | some kind =>
    unfold isNarrowing at found
    split at found <;> simp_all [boundedFamily]

/-- A change between types of the families is reported exactly if it stays in the family and
    some value of the old type is too long, out of range or too fine for the new one. -/
theorem narrowing_exact {old new : ColumnType} {family family' : TypeFamily}
    (from_family : boundedFamily old = some family)
    (to_family : boundedFamily new = some family') :
    (isNarrowing old new).isSome ↔
      family = family' ∧ ∃ v : Value, v.Fits old ∧ ¬ v.Fits new := by
  by_cases same : family = family'
  · subst same
    rw [eq_self, true_and]
    cases family with
    | string => exact string_narrowing_iff from_family to_family
    | decimal => exact decimal_narrowing_iff from_family to_family
    | integer => exact integer_narrowing_iff from_family to_family
  · rw [other_family from_family to_family same]
    simp [same]

theorem price_narrowing : (isNarrowing (.complex (.numeric 10 2)) (.complex (.numeric 10 4))).isSome ↔
    TypeFamily.decimal = .decimal ∧ ∃ v : Value, v.Fits (.complex (.numeric 10 2)) ∧
      ¬ v.Fits (.complex (.numeric 10 4)) :=
  narrowing_exact rfl rfl

end Vespertide
