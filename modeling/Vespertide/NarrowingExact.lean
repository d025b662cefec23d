import Vespertide.Narrowing
import Vespertide.Support.Decimal

/-!
What the row statement before a narrowing leaves in the column. A value has to
fit the new type afterwards, and what fitted before has to be as it was. The
column still has its old type while the statement runs, and a backend that
enforces types rounds what is stored, or refuses it.
-/
namespace Vespertide

/-! Values of a column -/

inductive Value where
  | text (s : String)
  | number (q : ℚ)
  deriving DecidableEq

/-- Values of the types that have a row statement before their narrowing. -/
def Value.Fits : ColumnType → Value → Prop
  | .simple .text, .text _ => True
  | .complex (.varchar length), .text s => s.length ≤ length
  | .complex (.char length), .text s => s.length ≤ length
  | .complex (.numeric precision scale), .number q => Decimal.Fits precision scale q
  | .simple .smallInt, .number q => q.den = 1 ∧ -32768 ≤ q ∧ q ≤ 32767
  | .simple .integer, .number q => q.den = 1 ∧ -2147483648 ≤ q ∧ q ≤ 2147483647
  | .simple .bigInt, .number q => q.den = 1 ∧ -9223372036854775808 ≤ q ∧ q ≤ 9223372036854775807
  | _, _ => False

instance (type : ColumnType) (v : Value) : Decidable (v.Fits type) := by
  unfold Value.Fits
  split <;> infer_instance

/-- A cell that is NULL fits every type. -/
abbrev Cell := Option Value

def Cell.Fits (type : ColumnType) (cell : Cell) : Prop := ∀ v ∈ cell, v.Fits type

/-- Storing into a column: SQLite keeps what it is given, the others round to the scale
    of the column and refuse what does not fit. -/
def stored (backend : DatabaseBackend) (type : ColumnType) (v : Value) : Option Value :=
  match backend, type, v with
  | .sqlite, _, v => some v
  | _, .complex (.numeric precision scale), .number q =>
      if Decimal.Fits precision scale (Decimal.roundTo scale q) then
        some (.number (Decimal.roundTo scale q))
      else none
  | _, type, v => if v.Fits type then some v else none

def storedCell (backend : DatabaseBackend) (type : ColumnType) : Cell → Option Cell
  | none => some none
  | some v => (stored backend type v).map some

/-! The statement -/

inductive RowTest where
  | longer (length : Nat)
  | roundsOff (scale : Nat)
  | reaches (digits : Nat)
  | outside (low high : Int)

inductive RowChange where
  | delete (test : RowTest)
  | setTo (value : String) (test : RowTest)
  | cutTo (length : Nat)
  | roundTo (scale : Nat)

section Text
variable (backend : DatabaseBackend) (table column : String)

def RowTest.sql : RowTest → String
  | .longer length =>
      let lenFn := match backend with
        | .mySql => "CHAR_LENGTH"
        | .postgres => "LENGTH"
        | .sqlite => "length"
      s!"{lenFn}({quoteIdent column backend}) > {length}"
  | .roundsOff scale => s!"{quoteIdent column backend} <> ROUND({quoteIdent column backend}, {scale})"
  | .reaches digits => s!"ABS({quoteIdent column backend}) >= {tenPowString digits}"
  | .outside low high =>
      s!"{quoteIdent column backend} > {high} OR {quoteIdent column backend} < {low}"

def RowChange.statement : RowChange → BuiltQuery
  | .delete test =>
      .changeRows table
        ("DELETE FROM " ++ quoteIdent table backend ++ " WHERE " ++ test.sql backend column)
  | .setTo value test =>
      .changeRows table ("UPDATE " ++ quoteIdent table backend ++ " SET " ++
        quoteIdent column backend ++ " = " ++ value ++ " WHERE " ++ test.sql backend column)
  | .cutTo length => stringLeftUpdate backend table column length
  | .roundTo scale => numericRoundUpdate backend table column scale

end Text

def RowTest.holds : RowTest → Value → Bool
  | .longer length, .text s => length < s.length
  | .roundsOff scale, .number q => q ≠ Decimal.roundTo scale q
  | .reaches digits, .number q => 10 ^ min digits 38 ≤ |q|
  | .outside low high, .number q => high < q ∨ q < low
  | _, _ => false

def Value.cut (length : Nat) : Value → Value
  | .text s => .text (String.ofList (s.toList.take length))
  | .number q => .number q

def Value.round (scale : Nat) : Value → Value
  | .number q => .number (Decimal.roundTo scale q)
  | .text s => .text s

section Effect
variable (backend : DatabaseBackend) (valueOf : String → Cell) (type : ColumnType)

/-- What becomes of a cell: nothing if the row goes, no outcome at all if the statement
    fails. A test of NULL is not true. -/
def RowChange.onCell : RowChange → Cell → Option (Option Cell)
  | _, none => some (some none)
  | .delete test, some v => if test.holds v then some none else some (some (some v))
  | .setTo value test, some v =>
      if test.holds v then (storedCell backend type (valueOf value)).map some
      else some (some (some v))
  | .cutTo length, some v =>
      if (RowTest.longer length).holds v then
        (storedCell backend type (some (v.cut length))).map some
      else some (some (some v))
  | .roundTo scale, some v => (storedCell backend type (some (v.round scale))).map some

/-- The cells of the rows that remain. -/
def RowChange.run (change : RowChange) (cells : List Cell) : Option (List Cell) :=
  (cells.mapM (change.onCell backend valueOf type)).map (·.reduceOption)

/-- After the statement every value fits the new type, and the rows whose value fitted
    before remain with it. -/
def Prepares (newType : ColumnType) (change : RowChange) (cells : List Cell) : Prop :=
  (∃ left, change.run backend valueOf type cells = some left ∧ ∀ cell ∈ left, cell.Fits newType) ∧
    ∀ cell ∈ cells, cell.Fits newType → change.onCell backend valueOf type cell = some (some cell)

end Effect

/-! The emitted statement -/

def narrowingTest : NarrowingKind → Option RowTest
  | .varcharLength _ new | .charLength _ new | .varcharToCharShorter _ new
  | .charToVarcharShorter _ new => some (.longer new)
  | .textToVarchar toLength | .textToChar toLength => some (.longer toLength)
  | .numericScale _ toScale => some (.roundsOff toScale)
  | .numericIntegerDigits _ toIntDigits => some (.reaches toIntDigits)
  | .integerSize _ target => some (.outside (integerBounds target).1 (integerBounds target).2)
  | .floatSize _ _ | .timestamptzToTimestamp => none

def narrowingCut : NarrowingKind → Option RowChange
  | .varcharLength _ new | .charLength _ new | .varcharToCharShorter _ new
  | .charToVarcharShorter _ new => some (.cutTo new)
  | .textToVarchar toLength | .textToChar toLength => some (.cutTo toLength)
  | .numericScale _ toScale => some (.roundTo toScale)
  | .numericIntegerDigits _ _ | .integerSize _ _ | .floatSize _ _ | .timestamptzToTimestamp => none

def narrowingChange (kind : NarrowingKind) : NarrowingStrategy → Option RowChange
  | .truncate => narrowingCut kind
  | .delete => (narrowingTest kind).map .delete
  | .setToValue value => (narrowingTest kind).map (.setTo value)

theorem violation_predicate_text (backend : DatabaseBackend) (column : String)
    (kind : NarrowingKind) : (violationPredicate backend column kind).toOption =
      (narrowingTest kind).map (·.sql backend column) := by
  cases kind <;> rfl

theorem preprocess_statement {backend : DatabaseBackend} {table column : String}
    {oldType newType : ColumnType} {baseline : List TableDef} {kind : NarrowingKind}
    (found : lookupOldType table column baseline = some oldType)
    (narrows : isNarrowing oldType newType = some kind) (strategy : NarrowingStrategy) :
    (buildNarrowingPreprocess backend table column newType strategy baseline).toOption =
      (narrowingChange kind strategy).map fun change => [change.statement backend table column] := by
  have predicate := violation_predicate_text backend column kind
  simp only [buildNarrowingPreprocess, found, narrows]
  cases strategy with
  | truncate => cases kind <;> rfl
  | delete =>
    simp only [buildDelete, narrowingChange]
    cases emitted : violationPredicate backend column kind with
    | error e =>
      rw [emitted] at predicate
      rw [Option.map_eq_none_iff.mp predicate.symm]
      rfl
    | ok text =>
      rw [emitted] at predicate
      obtain ⟨test, same, rfl⟩ := Option.map_eq_some_iff.mp predicate.symm
      rw [same]
      rfl
  | setToValue value =>
    simp only [buildSetToValue, narrowingChange]
    cases emitted : violationPredicate backend column kind with
    | error e =>
      rw [emitted] at predicate
      rw [Option.map_eq_none_iff.mp predicate.symm]
      rfl
    | ok text =>
      rw [emitted] at predicate
      obtain ⟨test, same, rfl⟩ := Option.map_eq_some_iff.mp predicate.symm
      rw [same]
      rfl

theorem ten_pow_digits (digits : Nat) :
    (tenPowString digits).toList.foldl (fun n c => n * 10 + (c.toNat - '0'.toNat)) 0 =
      10 ^ min digits 38 := by
  have zeros : ∀ k n, (List.replicate k '0').foldl
      (fun n (c : Char) => n * 10 + (c.toNat - '0'.toNat)) n = n * 10 ^ k := by
    intro k
    induction k with
    | zero => simp
    | succ k ih =>
      intro n
      rw [List.replicate_succ, List.foldl_cons, ih]
      simp only [Nat.sub_self, Nat.add_zero, pow_succ]
      ring
  rw [tenPowString, String.toList_append, List.foldl_append, String.toList_ofList,
    String.toList_ofList, zeros]
  exact Nat.one_mul _

/-! One cell at a time -/

section Cells
variable {backend : DatabaseBackend} {valueOf : String → Cell} {oldType newType : ColumnType}

def Prepared (backend : DatabaseBackend) (valueOf : String → Cell) (oldType newType : ColumnType)
    (change : RowChange) (v : Value) : Prop :=
  ∃ left, change.onCell backend valueOf oldType (some v) = some left ∧
    (∀ cell ∈ left, cell.Fits newType) ∧ (v.Fits newType → left = some (some v))

theorem run_left {change : RowChange} {cells : List Cell}
    (each : ∀ cell ∈ cells, ∃ left, change.onCell backend valueOf oldType cell = some left ∧
      ∀ c ∈ left, Cell.Fits newType c) :
    ∃ left, change.run backend valueOf oldType cells = some left ∧
      ∀ cell ∈ left, cell.Fits newType := by
  suffices ∃ out, cells.mapM (change.onCell backend valueOf oldType) = some out ∧
      ∀ left ∈ out, ∀ c ∈ left, Cell.Fits newType c by
    obtain ⟨out, ran, fits⟩ := this
    refine ⟨out.reduceOption, by rw [RowChange.run, ran, Option.map_some], fun cell mem => ?_⟩
    exact fits (some cell) (List.reduceOption_mem_iff.mp mem) cell rfl
  induction cells with
  | nil => exact ⟨[], rfl, by simp⟩
  | cons cell cells ih =>
    obtain ⟨⟨left, ran, fits⟩, others⟩ := List.forall_mem_cons.mp each
    obtain ⟨out, rest, all⟩ := ih others
    refine ⟨left :: out, ?_, List.forall_mem_cons.mpr ⟨fits, all⟩⟩
    rw [List.mapM_cons, ran, rest]
    rfl

theorem prepares_all_iff (change : RowChange) :
    (∀ cells : List Cell, (∀ cell ∈ cells, cell.Fits oldType) →
      Prepares backend valueOf oldType newType change cells) ↔
    ∀ v : Value, v.Fits oldType → Prepared backend valueOf oldType newType change v := by
  constructor
  · intro all v fits
    obtain ⟨⟨left, ran, fitting⟩, keeps⟩ := all [some v] (by simpa [Cell.Fits] using fits)
    simp only [RowChange.run, List.mapM_cons, List.mapM_nil] at ran
    cases outcome : change.onCell backend valueOf oldType (some v) with
    | none => simp [outcome] at ran
    | some kept =>
      refine ⟨kept, outcome, fun cell mem => ?_, fun fits_new => ?_⟩
      · rw [outcome] at ran
        obtain rfl := Option.some.inj ran
        refine fitting cell ?_
        rw [Option.mem_def.mp mem]
        exact List.mem_singleton_self cell
      · have same := keeps (some v) (List.mem_singleton_self _) (by simpa [Cell.Fits] using fits_new)
        exact Option.some.inj (outcome.symm.trans same)
  · intro each cells fits
    have outcome : ∀ cell ∈ cells, ∃ left,
        change.onCell backend valueOf oldType cell = some left ∧
          (∀ c ∈ left, Cell.Fits newType c) ∧ (cell.Fits newType → left = some cell) := by
      intro cell mem
      cases cell with
      | none =>
        refine ⟨some none, by cases change <;> rfl, ?_, fun _ => rfl⟩
        intro c same
        obtain rfl := Option.some.inj (Option.mem_def.mp same)
        simp [Cell.Fits]
      | some v =>
        obtain ⟨left, ran, fitting, keeps⟩ := each v (fits _ mem v rfl)
        exact ⟨left, ran, fitting, fun fits_new => keeps (fits_new v rfl)⟩
    refine ⟨run_left fun cell mem => ?_, fun cell mem fits_new => ?_⟩
    · obtain ⟨left, ran, fitting, _⟩ := outcome cell mem
      exact ⟨left, ran, fitting⟩
    · obtain ⟨left, ran, _, keeps⟩ := outcome cell mem
      rw [ran, keeps fits_new]

/-! Deleting and replacing -/

/-- The condition of the statement picks out the values that do not fit. -/
def Exact (oldType newType : ColumnType) (test : RowTest) : Prop :=
  ∀ v : Value, v.Fits oldType → (test.holds v = true ↔ ¬ v.Fits newType)

theorem delete_prepared_iff {test : RowTest} : (∀ v : Value, v.Fits oldType →
      Prepared backend valueOf oldType newType (.delete test) v) ↔ Exact oldType newType test := by
  refine forall_congr' fun v => imp_congr_right fun _ => ?_
  unfold Prepared RowChange.onCell
  by_cases picked : test.holds v = true
  · simp [picked]
  · simp [picked, Cell.Fits]

theorem set_prepared_iff {test : RowTest} {value : String} : (∀ v : Value, v.Fits oldType →
      Prepared backend valueOf oldType newType (.setTo value test) v) ↔
    ∀ v : Value, v.Fits oldType → (test.holds v = false → v.Fits newType) ∧
      (test.holds v = true → ∃ cell, storedCell backend oldType (valueOf value) = some cell ∧
        cell.Fits newType ∧ (v.Fits newType → cell = some v)) := by
  refine forall_congr' fun v => imp_congr_right fun _ => ?_
  unfold Prepared RowChange.onCell
  by_cases picked : test.holds v = true
  · cases kept : storedCell backend oldType (valueOf value) <;> simp [picked, kept]
  · simp [picked, Cell.Fits]

/-- The value to set, as the column of the old type stores it, fits the new type. -/
def StoredFits (backend : DatabaseBackend) (valueOf : String → Cell) (oldType newType : ColumnType)
    (value : String) : Prop :=
  ∃ cell, storedCell backend oldType (valueOf value) = some cell ∧ cell.Fits newType

theorem set_exact_iff {test : RowTest} (exact_test : Exact oldType newType test) {value : String} :
    (∀ v : Value, v.Fits oldType →
      Prepared backend valueOf oldType newType (.setTo value test) v) ↔
    ((∃ v : Value, v.Fits oldType ∧ ¬ v.Fits newType) →
      StoredFits backend valueOf oldType newType value) := by
  rw [set_prepared_iff]
  constructor
  · rintro prepared ⟨v, fits_old, misfit⟩
    obtain ⟨cell, same, cell_fits, -⟩ :=
      (prepared v fits_old).2 ((exact_test v fits_old).mpr misfit)
    exact ⟨cell, same, cell_fits⟩
  · intro stored_fits v fits_old
    refine ⟨fun spared => ?_, fun picked => ?_⟩
    · by_contra misfit
      rw [(exact_test v fits_old).mpr misfit] at spared
      cases spared
    · have misfit := (exact_test v fits_old).mp picked
      obtain ⟨cell, same, cell_fits⟩ := stored_fits ⟨v, fits_old, misfit⟩
      exact ⟨cell, same, cell_fits, fun fits_new => absurd fits_new misfit⟩

end Cells

/-! Texts and integers -/

section Types
variable {backend : DatabaseBackend} {valueOf : String → Cell} {oldType newType : ColumnType}

theorem stored_fitting {type : ColumnType} {v : Value} (fits : v.Fits type) :
    stored backend type v = some v := by
  unfold stored
  split
  · rfl
  · have same : Decimal.roundTo _ _ = _ := Decimal.round_to_eq_iff.mpr fits.1
    rw [same]
    exact if_pos fits
  · exact if_pos fits

/-- A type that holds fewer of the same values. -/
structure Narrower (oldType newType : ColumnType) (test : RowTest) : Prop where
  within : ∀ v : Value, v.Fits newType → v.Fits oldType
  exact_test : Exact oldType newType test

theorem narrower_set (valueOf : String → Cell) {test : RowTest}
    (narrower : Narrower oldType newType test) {value : String}
    (value_fits : (valueOf value).Fits newType) :
    StoredFits backend valueOf oldType newType value := by
  refine ⟨valueOf value, ?_, value_fits⟩
  cases same : valueOf value with
  | none => rfl
  | some v =>
    have fits_new := value_fits v same
    rw [storedCell, stored_fitting (narrower.within v fits_new), Option.map_some]

structure TextTypes (oldType newType : ColumnType) (length : Nat) : Prop where
  old_text : ∀ v : Value, v.Fits oldType → ∃ s, v = .text s
  new_text : ∀ v : Value, v.Fits newType ↔ ∃ s, v = .text s ∧ s.length ≤ length
  shorter : ∀ s : String, s.length ≤ length → (Value.text s).Fits oldType

theorem TextTypes.narrower {length : Nat} (texts : TextTypes oldType newType length) :
    Narrower oldType newType (.longer length) := by
  constructor
  · intro v fits
    obtain ⟨s, rfl, short⟩ := (texts.new_text v).mp fits
    exact texts.shorter s short
  · intro v fits
    obtain ⟨s, rfl⟩ := texts.old_text v fits
    simp [RowTest.holds, texts.new_text]

theorem TextTypes.cut_prepared {length : Nat} (texts : TextTypes oldType newType length) :
    ∀ v : Value, v.Fits oldType →
      Prepared backend valueOf oldType newType (.cutTo length) v := by
  intro v fits
  obtain ⟨s, rfl⟩ := texts.old_text v fits
  have exact_test := texts.narrower.exact_test _ fits
  unfold Prepared RowChange.onCell
  by_cases long : (RowTest.longer length).holds (.text s) = true
  · have short : (String.ofList (s.toList.take length)).length ≤ length := by
      rw [String.length_ofList, List.length_take]
      exact min_le_left _ _
    have cut_fits : ((Value.text s).cut length).Fits newType :=
      (texts.new_text _).mpr ⟨_, rfl, short⟩
    have kept : stored backend oldType ((Value.text s).cut length) = some ((Value.text s).cut length) :=
      stored_fitting (texts.shorter _ short)
    refine ⟨some (some ((Value.text s).cut length)), ?_, ?_, fun fits_new => ?_⟩
    · simp only [long, if_true, storedCell, kept, Option.map_some]
    · simpa [Cell.Fits] using cut_fits
    · exact absurd fits_new (exact_test.mp long)
  · have fits_new : (Value.text s).Fits newType := by
      by_contra misfit
      exact long (exact_test.mpr misfit)
    refine ⟨some (some (.text s)), if_neg long, ?_, fun _ => rfl⟩
    simpa [Cell.Fits] using fits_new

theorem text_types {length : Nat}
    (old : oldType = .simple .text ∨
      ∃ a, length < a ∧ (oldType = .complex (.varchar a) ∨ oldType = .complex (.char a)))
    (new : newType = .complex (.varchar length) ∨ newType = .complex (.char length)) :
    TextTypes oldType newType length := by
  constructor
  · intro v fits
    cases v with
    | text s => exact ⟨s, rfl⟩
    | number q => rcases old with rfl | ⟨a, -, rfl | rfl⟩ <;> cases fits
  · intro v
    rcases new with rfl | rfl <;> cases v <;> simp [Value.Fits]
  · intro s short
    rcases old with rfl | ⟨a, longer, rfl | rfl⟩
    · trivial
    · exact short.trans longer.le
    · exact short.trans longer.le

def IntegerType (type : ColumnType) (low high : Int) : Prop :=
  ∀ v : Value, v.Fits type ↔ ∃ q, v = .number q ∧ q.den = 1 ∧ (low : ℚ) ≤ q ∧ q ≤ high

theorem small_int_type : IntegerType (.simple .smallInt) (-32768) 32767 := by
  intro v
  cases v <;> simp [Value.Fits]

theorem integer_type : IntegerType (.simple .integer) (-2147483648) 2147483647 := by
  intro v
  cases v <;> simp [Value.Fits]

theorem big_int_type :
    IntegerType (.simple .bigInt) (-9223372036854775808) 9223372036854775807 := by
  intro v
  cases v <;> simp [Value.Fits]

theorem IntegerType.narrower {low high low' high' : Int} (old : IntegerType oldType low high)
    (new : IntegerType newType low' high') (above : low ≤ low') (below : high' ≤ high) :
    Narrower oldType newType (.outside low' high') := by
  have above' : (low : ℚ) ≤ low' := by exact_mod_cast above
  have below' : (high' : ℚ) ≤ high := by exact_mod_cast below
  constructor
  · intro v fits
    obtain ⟨q, rfl, whole, least, most⟩ := (new v).mp fits
    exact (old _).mpr ⟨q, rfl, whole, above'.trans least, most.trans below'⟩
  · intro v fits
    obtain ⟨q, rfl, whole, -, -⟩ := (old v).mp fits
    simp [RowTest.holds, new _, whole, or_comm, imp_iff_not_or]

theorem narrowing_cases {kind : NarrowingKind} (narrows : isNarrowing oldType newType = some kind) :
    (∃ length, TextTypes oldType newType length ∧ narrowingTest kind = some (.longer length) ∧
      narrowingCut kind = some (.cutTo length)) ∨
    (∃ p1 s1 p2 s2, oldType = .complex (.numeric p1 s1) ∧ newType = .complex (.numeric p2 s2) ∧
      s2 < s1 ∧ kind = .numericScale s1 s2) ∨
    (∃ p1 s1 p2 s2, oldType = .complex (.numeric p1 s1) ∧ newType = .complex (.numeric p2 s2) ∧
      ¬ s2 < s1 ∧ p2 - s2 < p1 - s1 ∧ kind = .numericIntegerDigits (p1 - s1) (p2 - s2)) ∨
    (∃ low high, Narrower oldType newType (.outside low high) ∧
      (∀ p s, oldType ≠ .complex (.numeric p s)) ∧
      narrowingTest kind = some (.outside low high) ∧ narrowingCut kind = none) ∨
    (narrowingTest kind = none ∧ narrowingCut kind = none) := by
  unfold isNarrowing at narrows
  split at narrows
  case h_1 a b | h_2 a b | h_3 a b | h_4 a b =>
    obtain ⟨shorter, same⟩ := Option.ite_none_right_eq_some.mp narrows
    obtain rfl := Option.some.inj same
    exact .inl ⟨b, text_types (.inr ⟨a, shorter, by simp⟩) (by simp), rfl, rfl⟩
  case h_5 length | h_6 length =>
    obtain rfl := Option.some.inj narrows
    exact .inl ⟨length, text_types (.inl rfl) (by simp), rfl, rfl⟩
  case h_7 p1 s1 p2 s2 =>
    split at narrows
    · rename_i scale
      exact .inr (.inl ⟨p1, s1, p2, s2, rfl, rfl, scale, (Option.some.inj narrows).symm⟩)
    · rename_i scale
      obtain ⟨digits, same⟩ := Option.ite_none_right_eq_some.mp narrows
      exact .inr (.inr (.inl ⟨p1, s1, p2, s2, rfl, rfl, scale, digits, (Option.some.inj same).symm⟩))
  case h_8 =>
    obtain rfl := Option.some.inj narrows
    exact .inr (.inr (.inr (.inl
      ⟨_, _, big_int_type.narrower integer_type (by decide) (by decide), nofun, rfl, rfl⟩)))
  case h_9 =>
    obtain rfl := Option.some.inj narrows
    exact .inr (.inr (.inr (.inl
      ⟨_, _, big_int_type.narrower small_int_type (by decide) (by decide), nofun, rfl, rfl⟩)))
  case h_10 =>
    obtain rfl := Option.some.inj narrows
    exact .inr (.inr (.inr (.inl
      ⟨_, _, integer_type.narrower small_int_type (by decide) (by decide), nofun, rfl, rfl⟩)))
  case h_11 | h_12 =>
    obtain rfl := Option.some.inj narrows
    exact .inr (.inr (.inr (.inr ⟨rfl, rfl⟩)))
  case h_13 => cases narrows

end Types

/-! Numbers that lose decimal places -/

section Scale
variable {backend : DatabaseBackend} {valueOf : String → Cell} {p1 s1 p2 s2 : Nat}

theorem numeric_fits {precision scale : Nat} {v : Value}
    (fits : v.Fits (.complex (.numeric precision scale))) :
    ∃ q, v = .number q ∧ Decimal.Fits precision scale q := by
  cases v with
  | text s => cases fits
  | number q => exact ⟨q, rfl, fits⟩

theorem rounds_off_holds {scale : Nat} {q : ℚ} :
    (RowTest.roundsOff scale).holds (.number q) = true ↔ ¬ (q * 10 ^ scale).den = 1 := by
  rw [← Decimal.round_to_eq_iff, RowTest.holds, decide_eq_true_iff]
  exact not_congr eq_comm

/-- The test looks at the decimal places alone, so the digits before them must suffice. -/
theorem scale_exact_iff (loses : s2 < s1) :
    Exact (.complex (.numeric p1 s1)) (.complex (.numeric p2 s2)) (.roundsOff s2) ↔
      p1 + s2 ≤ p2 + s1 := by
  constructor
  · intro exact_test
    by_contra short
    let wide : ℚ := (10 ^ p2 : ℕ) / 10 ^ s2
    have fits_old : Decimal.Fits p1 s1 wide := by
      rw [Decimal.fits_div_iff loses.le, ← pow_add]
      exact Nat.pow_lt_pow_right (by decide) (by omega)
    have misfit : ¬ Decimal.Fits p2 s2 wide := by
      rw [Decimal.fits_div_iff le_rfl]
      simp
    have whole : (wide * 10 ^ s2).den = 1 := by
      have scaled := Decimal.scaled_div (10 ^ p2 : ℕ) s2
      rwa [Int.cast_natCast] at scaled
    exact rounds_off_holds.mp ((exact_test (.number wide) fits_old).mpr misfit) whole
  · rintro digits v fits
    obtain ⟨q, rfl, fits_old⟩ := numeric_fits fits
    rw [rounds_off_holds, not_iff_not]
    exact ⟨fun whole => Decimal.fits_of_finer fits_old.2 whole digits, fun fits_new => fits_new.1⟩

theorem scale_misfit (loses : s2 < s1) (digit : p1 ≠ 0) :
    ∃ v : Value, v.Fits (.complex (.numeric p1 s1)) ∧ ¬ v.Fits (.complex (.numeric p2 s2)) := by
  refine ⟨.number ((1 : ℕ) / 10 ^ s1), ?_, ?_⟩
  · rw [Value.Fits, Decimal.fits_div_iff le_rfl, Nat.sub_self]
    exact Nat.one_lt_pow digit (by decide)
  · rintro ⟨whole, -⟩
    obtain ⟨m, same⟩ := Decimal.den_one_iff.mp whole
    have unit : (10 : ℚ) ^ s1 ≠ 0 := by positivity
    rw [Nat.cast_one, div_mul_eq_mul_div, one_mul, div_eq_iff unit] at same
    have divides : (10 : ℤ) ^ s1 ∣ 10 ^ s2 := ⟨m, by rw [mul_comm]; exact_mod_cast same⟩
    have bound := (Nat.pow_dvd_pow_iff_le_right (by decide : 1 < 10)).mp (by exact_mod_cast divides)
    omega

theorem stored_number {precision scale : Nat} {q : ℚ} (whole : (q * 10 ^ scale).den = 1) :
    stored backend (.complex (.numeric precision scale)) (.number q) =
      if backend = .sqlite ∨ Decimal.Fits precision scale q then some (.number q) else none := by
  have same := Decimal.round_to_eq_iff.mpr whole
  cases backend with
  | sqlite => rfl
  | postgres | mySql => simp only [stored, same, reduceCtorEq, false_or]

theorem round_prepared_iff {q : ℚ} (loses : s2 < s1) :
    Prepared backend valueOf (.complex (.numeric p1 s1)) (.complex (.numeric p2 s2))
      (.roundTo s2) (.number q) ↔
    Decimal.Fits p2 s2 (Decimal.roundTo s2 q) ∧
      (backend = .sqlite ∨ Decimal.Fits p1 s1 (Decimal.roundTo s2 q)) := by
  have kept := @stored_number backend p1 s1 _
    (Decimal.scaled_mono loses.le (Decimal.round_to_scaled s2 q))
  constructor
  · rintro ⟨left, ran, fits, -⟩
    rw [RowChange.onCell, Value.round, storedCell, kept] at ran
    split at ran
    · rename_i accepted
      obtain rfl := Option.some.inj ran
      exact ⟨fits _ rfl _ rfl, accepted⟩
    · cases ran
  · rintro ⟨fits_new, accepted⟩
    refine ⟨some (some (.number (Decimal.roundTo s2 q))), ?_, ?_, fun fits => ?_⟩
    · rw [RowChange.onCell, Value.round, storedCell, kept, if_pos accepted]
      rfl
    · intro cell same
      obtain rfl := Option.some.inj (Option.mem_def.mp same)
      intro v same
      obtain rfl := Option.some.inj (Option.mem_def.mp same)
      exact fits_new
    · rw [Decimal.round_to_eq_iff.mpr fits.1]

/-- The old type refuses the carry as well, where it is asked. -/
theorem scale_round_iff (loses : s2 < s1) :
    (∀ v : Value, v.Fits (.complex (.numeric p1 s1)) →
      Prepared backend valueOf (.complex (.numeric p1 s1)) (.complex (.numeric p2 s2))
        (.roundTo s2) v) ↔
      if backend = .sqlite then p1 + s2 < p2 + s1 else p1 + s2 < s1 := by
  constructor
  · intro prepared
    split
    · by_contra short
      obtain ⟨fits_old, carried⟩ := @Decimal.carry p1 s1 p2 s2 loses (by omega)
      have fits_new := ((round_prepared_iff loses).mp (prepared (.number _) fits_old)).1
      exact absurd fits_new.2 (not_lt_of_ge carried)
    · rename_i enforced
      by_contra short
      obtain ⟨fits_old, carried⟩ := @Decimal.carry p1 s1 (p1 + s2 - s1) s2 loses (by omega)
      have accepted := ((round_prepared_iff loses).mp (prepared (.number _) fits_old)).2
      have fits := Decimal.fits_of_finer (accepted.resolve_left enforced).2
        (Decimal.round_to_scaled s2 _) (by omega : p1 + s2 ≤ p1 + s2 - s1 + s1)
      exact absurd fits.2 (not_lt_of_ge carried)
  · rintro digits v fits
    obtain ⟨q, rfl, fits_old⟩ := numeric_fits fits
    rw [round_prepared_iff loses]
    split at digits
    · rename_i keeps
      exact ⟨Decimal.round_to_fits fits_old digits, .inl keeps⟩
    · have zero : Decimal.roundTo s2 q = 0 :=
        Decimal.fits_no_digits_iff.mp (Decimal.round_to_fits fits_old (by omega))
      rw [zero]
      exact ⟨by simp [Decimal.Fits], .inr (by simp [Decimal.Fits])⟩

theorem scale_set_iff {value : String} (loses : s2 < s1) :
    (∀ v : Value, v.Fits (.complex (.numeric p1 s1)) →
      Prepared backend valueOf (.complex (.numeric p1 s1)) (.complex (.numeric p2 s2))
        (.setTo value (.roundsOff s2)) v) ↔
      p1 + s2 ≤ p2 + s1 ∧ (p1 = 0 ∨
        StoredFits backend valueOf (.complex (.numeric p1 s1)) (.complex (.numeric p2 s2))
          value) := by
  constructor
  · intro prepared
    have each := set_prepared_iff.mp prepared
    have exact_test : Exact (.complex (.numeric p1 s1)) (.complex (.numeric p2 s2))
        (.roundsOff s2) := by
      intro v fits
      obtain ⟨q, rfl, fits_old⟩ := numeric_fits fits
      constructor
      · intro picked fits_new
        exact rounds_off_holds.mp picked fits_new.1
      · intro misfit
        by_contra spared
        exact misfit ((each (.number q) fits_old).1 (Bool.eq_false_of_not_eq_true spared))
    refine ⟨(scale_exact_iff loses).mp exact_test, or_iff_not_imp_left.mpr fun digit => ?_⟩
    exact (set_exact_iff exact_test).mp prepared (scale_misfit loses digit)
  · rintro ⟨digits, stored_fits⟩
    refine (set_exact_iff ((scale_exact_iff loses).mpr digits)).mpr ?_
    rintro ⟨v, fits, misfit⟩
    refine stored_fits.resolve_left ?_
    rintro rfl
    obtain ⟨q, rfl, fits_old⟩ := numeric_fits fits
    obtain rfl := Decimal.fits_no_digits_iff.mp fits_old
    exact misfit (by simp [Value.Fits, Decimal.Fits])

end Scale

/-! Numbers that lose integer digits -/

section Digits
variable {p1 s1 p2 s2 : Nat}

theorem reaches_holds {digits : Nat} {q : ℚ} :
    (RowTest.reaches digits).holds (.number q) = true ↔ 10 ^ min digits 38 ≤ |q| := by
  rw [RowTest.holds, decide_eq_true_iff]

theorem digits_exact (scale : s1 ≤ s2) (room : s2 ≤ p2 ∨ s1 = 0) (bounded : p2 - s2 ≤ 38) :
    Exact (.complex (.numeric p1 s1)) (.complex (.numeric p2 s2)) (.reaches (p2 - s2)) := by
  rintro v fits
  obtain ⟨q, rfl, fits_old⟩ := numeric_fits fits
  rw [reaches_holds, min_eq_left bounded, ← not_lt, not_iff_not]
  have unit : (0 : ℚ) < 10 ^ s2 := by positivity
  rw [← mul_lt_mul_iff_left₀ unit, ← pow_add]
  constructor
  · intro small
    have whole := Decimal.scaled_mono scale fits_old.1
    rcases le_or_gt s2 p2 with wide | narrow
    · exact ⟨whole, by rwa [Nat.sub_add_cancel wide] at small⟩
    · obtain rfl := room.resolve_left (by omega)
      have below : |q| * 10 ^ 0 < 10 ^ 0 := by
        rw [pow_zero, mul_one]
        rw [Nat.sub_eq_zero_of_le narrow.le, zero_add] at small
        exact (mul_lt_iff_lt_one_left unit).mp small
      have zero : q = 0 := Decimal.fits_no_digits_iff.mp ⟨fits_old.1, below⟩
      rw [zero]
      simp [Value.Fits, Decimal.Fits]
  · intro fits_new
    have grown : (10 : ℚ) ^ p2 ≤ 10 ^ (p2 - s2 + s2) :=
      pow_le_pow_right₀ (by norm_num) (by omega)
    exact fits_new.2.trans_le grown

theorem fraction_spared (shrinks : p2 - s2 < p1 - s1) (narrow : p2 < s2)
    (places : s1 ≠ 0) : ∃ v : Value, v.Fits (.complex (.numeric p1 s1)) ∧
      (RowTest.reaches (p2 - s2)).holds v = false ∧ ¬ v.Fits (.complex (.numeric p2 s2)) := by
  refine ⟨.number ((9 : ℕ) / 10 ^ 1), ?_, ?_, ?_⟩
  · rw [Value.Fits, Decimal.fits_div_iff (by omega)]
    have unit : 0 < 10 ^ (s1 - 1) := by positivity
    calc 9 * 10 ^ (s1 - 1) < 10 ^ (s1 - 1 + 1) := by rw [pow_succ]; omega
      _ ≤ 10 ^ p1 := Nat.pow_le_pow_right (by decide) (by omega)
  · rw [← Bool.not_eq_true, reaches_holds, Nat.sub_eq_zero_of_le narrow.le]
    norm_num
  · rw [Value.Fits, Decimal.fits_div_iff (by omega), not_lt]
    calc 10 ^ p2 ≤ 10 ^ (s2 - 1) := Nat.pow_le_pow_right (by decide) (by omega)
      _ ≤ 9 * 10 ^ (s2 - 1) := by omega

/-- Beyond the bound of the condition a number is picked that fits. -/
theorem large_picked (shrinks : p2 - s2 < p1 - s1) (beyond : 38 < p2 - s2) {m : ℕ}
    (above : 10 ^ 38 ≤ m) (below : m < 10 ^ 39) :
    (Value.number m).Fits (.complex (.numeric p1 s1)) ∧
      (RowTest.reaches (p2 - s2)).holds (.number m) = true ∧
      (Value.number m).Fits (.complex (.numeric p2 s2)) := by
  have room : ∀ p s, 39 ≤ p - s → (Value.number m).Fits (.complex (.numeric p s)) := by
    intro p s digits
    rw [Value.Fits, Decimal.fits_nat_iff]
    calc m * 10 ^ s < 10 ^ 39 * 10 ^ s := Nat.mul_lt_mul_of_pos_right below (by positivity)
      _ = 10 ^ (39 + s) := (pow_add 10 39 s).symm
      _ ≤ 10 ^ p := Nat.pow_le_pow_right (by decide) (by omega)
  refine ⟨room p1 s1 (by omega), ?_, room p2 s2 beyond⟩
  rw [reaches_holds, min_eq_right beyond.le, abs_of_nonneg (by positivity)]
  exact_mod_cast above

theorem digits_misfit (shrinks : p2 - s2 < p1 - s1) :
    ∃ v : Value, v.Fits (.complex (.numeric p1 s1)) ∧ ¬ v.Fits (.complex (.numeric p2 s2)) := by
  refine ⟨.number (10 ^ (p2 - s2) : ℕ), ?_, ?_⟩
  · rw [Value.Fits, Decimal.fits_nat_iff, ← pow_add]
    exact Nat.pow_lt_pow_right (by decide) (by omega)
  · rw [Value.Fits, Decimal.fits_nat_iff, ← pow_add, not_lt]
    exact Nat.pow_le_pow_right (by decide) (by omega)

theorem digits_exact_iff (scale : s1 ≤ s2) (shrinks : p2 - s2 < p1 - s1) :
    Exact (.complex (.numeric p1 s1)) (.complex (.numeric p2 s2)) (.reaches (p2 - s2)) ↔
      (s2 ≤ p2 ∨ s1 = 0) ∧ p2 - s2 ≤ 38 := by
  constructor
  · intro exact_test
    constructor
    · by_contra tight
      obtain ⟨v, fits_old, spared, misfit⟩ := fraction_spared shrinks (by omega) (by omega)
      rw [(exact_test v fits_old).mpr misfit] at spared
      cases spared
    · by_contra beyond
      obtain ⟨fits_old, picked, fits_new⟩ :=
        large_picked shrinks (by omega) le_rfl (by decide : 10 ^ 38 < 10 ^ 39)
      exact (exact_test _ fits_old).mp picked fits_new
  · rintro ⟨room, bounded⟩
    exact digits_exact scale room bounded

/-- Two numbers that fit cannot both become the value that is set. -/
theorem digits_set_iff {backend : DatabaseBackend} {valueOf : String → Cell} {value : String}
    (scale : s1 ≤ s2) (shrinks : p2 - s2 < p1 - s1) :
    (∀ v : Value, v.Fits (.complex (.numeric p1 s1)) →
      Prepared backend valueOf (.complex (.numeric p1 s1)) (.complex (.numeric p2 s2))
        (.setTo value (.reaches (p2 - s2))) v) ↔
      ((s2 ≤ p2 ∨ s1 = 0) ∧ p2 - s2 ≤ 38) ∧
        StoredFits backend valueOf (.complex (.numeric p1 s1)) (.complex (.numeric p2 s2)) value := by
  constructor
  · intro prepared
    have each := set_prepared_iff.mp prepared
    have room : (s2 ≤ p2 ∨ s1 = 0) ∧ p2 - s2 ≤ 38 := by
      constructor
      · by_contra tight
        obtain ⟨v, fits_old, spared, misfit⟩ := fraction_spared shrinks (by omega) (by omega)
        exact misfit ((each v fits_old).1 spared)
      · by_contra beyond
        have becomes : ∀ m : ℕ, 10 ^ 38 ≤ m → m < 10 ^ 39 →
            storedCell backend (.complex (.numeric p1 s1)) (valueOf value) =
              some (some (.number m)) := by
          intro m above below
          obtain ⟨fits_old, picked, fits_new⟩ := large_picked shrinks (by omega) above below
          obtain ⟨cell, same, -, kept⟩ := (each _ fits_old).2 picked
          rw [same, kept fits_new]
        have first := becomes (10 ^ 38) le_rfl (by decide)
        rw [becomes (10 ^ 38 + 1) (by decide) (by decide)] at first
        simp at first
    exact ⟨room, (set_exact_iff ((digits_exact_iff scale shrinks).mpr room)).mp prepared
      (digits_misfit shrinks)⟩
  · rintro ⟨room, stored_fits⟩
    exact (set_exact_iff ((digits_exact_iff scale shrinks).mpr room)).mpr fun _ => stored_fits

end Digits

/-! All types -/

section All
variable {backend : DatabaseBackend} {valueOf : String → Cell} {oldType newType : ColumnType}

/-- What is asked of two types of decimals: room for the carry of the rounding, room for
    all digits before the decimal places where the condition looks at one of the two only,
    and no more digits than it writes. -/
def PreparesWhen (backend : DatabaseBackend) (valueOf : String → Cell)
    (oldType newType : ColumnType) (strategy : NarrowingStrategy) : Prop :=
  match oldType, newType with
  | .complex (.numeric p1 s1), .complex (.numeric p2 s2) =>
      if s2 < s1 then
        match strategy with
        | .truncate => if backend = .sqlite then p1 + s2 < p2 + s1 else p1 + s2 < s1
        | .delete => p1 + s2 ≤ p2 + s1
        | .setToValue value =>
            p1 + s2 ≤ p2 + s1 ∧ (p1 = 0 ∨ StoredFits backend valueOf oldType newType value)
      else ((s2 ≤ p2 ∨ s1 = 0) ∧ p2 - s2 ≤ 38) ∧
        ∀ value, strategy = .setToValue value → StoredFits backend valueOf oldType newType value
  | _, _ => True

theorem prepares_when_text {length : Nat} (texts : TextTypes oldType newType length)
    (strategy : NarrowingStrategy) : PreparesWhen backend valueOf oldType newType strategy := by
  unfold PreparesWhen
  split
  · have empty : (Value.text "").Fits _ := (texts.new_text _).mpr ⟨"", rfl, Nat.zero_le _⟩
    cases empty
  · trivial

theorem prepares_when_other (other : ∀ p s, oldType ≠ .complex (.numeric p s))
    (strategy : NarrowingStrategy) : PreparesWhen backend valueOf oldType newType strategy := by
  unfold PreparesWhen
  split
  · exact absurd rfl (other _ _)
  · trivial

/-- Every remaining value fits and every row that fitted is as it was, for all contents of
    the column, exactly under the condition. -/
theorem narrowing_prepares_iff {table column : String} {baseline : List TableDef}
    {kind : NarrowingKind} {strategy : NarrowingStrategy} {statements : List BuiltQuery}
    (found : lookupOldType table column baseline = some oldType)
    (narrows : isNarrowing oldType newType = some kind)
    (built : buildNarrowingPreprocess backend table column newType strategy baseline =
      .ok statements)
    (value_fits : ∀ value, strategy = .setToValue value → (valueOf value).Fits newType) :
    ∃ change, narrowingChange kind strategy = some change ∧
      statements = [change.statement backend table column] ∧
      ((∀ cells : List Cell, (∀ cell ∈ cells, cell.Fits oldType) →
        Prepares backend valueOf oldType newType change cells) ↔
        PreparesWhen backend valueOf oldType newType strategy) := by
  have emitted := @preprocess_statement backend _ _ _ _ _ _ found narrows strategy
  rw [built] at emitted
  obtain ⟨change, accepted, rfl⟩ := Option.map_eq_some_iff.mp emitted.symm
  refine ⟨change, accepted, rfl, ?_⟩
  rw [prepares_all_iff]
  rcases narrowing_cases narrows with ⟨length, texts, test, cut⟩ |
    ⟨p1, s1, p2, s2, rfl, rfl, loses, rfl⟩ | ⟨p1, s1, p2, s2, rfl, rfl, keeps, shrinks, rfl⟩ |
    ⟨low, high, narrower, other, test, cut⟩ | ⟨test, cut⟩
  · refine iff_of_true ?_ (prepares_when_text texts strategy)
    cases strategy with
    | truncate =>
      obtain rfl := Option.some.inj (cut.symm.trans accepted)
      exact texts.cut_prepared
    | delete =>
      rw [narrowingChange, test] at accepted
      obtain rfl := Option.some.inj accepted
      exact delete_prepared_iff.mpr texts.narrower.exact_test
    | setToValue value =>
      rw [narrowingChange, test] at accepted
      obtain rfl := Option.some.inj accepted
      exact (set_exact_iff texts.narrower.exact_test).mpr fun _ =>
        narrower_set valueOf texts.narrower (value_fits value rfl)
  · simp only [PreparesWhen, if_pos loses]
    cases strategy with
    | truncate =>
      obtain rfl := Option.some.inj accepted
      exact scale_round_iff loses
    | delete =>
      obtain rfl := Option.some.inj accepted
      exact delete_prepared_iff.trans (scale_exact_iff loses)
    | setToValue value =>
      obtain rfl := Option.some.inj accepted
      exact scale_set_iff loses
  · have scale : s1 ≤ s2 := not_lt.mp keeps
    simp only [PreparesWhen, if_neg keeps]
    cases strategy with
    | truncate => cases accepted
    | delete =>
      obtain rfl := Option.some.inj accepted
      rw [delete_prepared_iff, digits_exact_iff scale shrinks]
      simp
    | setToValue value =>
      obtain rfl := Option.some.inj accepted
      rw [digits_set_iff scale shrinks]
      simp
  · refine iff_of_true ?_ (prepares_when_other other strategy)
    cases strategy with
    | truncate => cases cut.symm.trans accepted
    | delete =>
      rw [narrowingChange, test] at accepted
      obtain rfl := Option.some.inj accepted
      exact delete_prepared_iff.mpr narrower.exact_test
    | setToValue value =>
      rw [narrowingChange, test] at accepted
      obtain rfl := Option.some.inj accepted
      exact (set_exact_iff narrower.exact_test).mpr fun _ =>
        narrower_set valueOf narrower (value_fits value rfl)
  · cases strategy with
    | truncate => cases cut.symm.trans accepted
    | delete | setToValue value =>
      rw [narrowingChange, test] at accepted
      cases accepted

end All

/-! A price that loses a digit -/

def orderTable : TableDef := ⟨"order", none, [.new "price" (.complex (.numeric 5 2)) true], []⟩

theorem price_set_iff : ∃ change,
    narrowingChange (.numericScale 2 1) (.setToValue "0") = some change ∧
      [.changeRows "order"
          "UPDATE \"order\" SET \"price\" = 0 WHERE \"price\" <> ROUND(\"price\", 1)"] =
        [change.statement .postgres "order" "price"] ∧
      ((∀ cells : List Cell, (∀ cell ∈ cells, cell.Fits (.complex (.numeric 5 2))) →
        Prepares .postgres (fun _ => some (.number 0)) (.complex (.numeric 5 2))
          (.complex (.numeric 4 1)) change cells) ↔
        PreparesWhen .postgres (fun _ => some (.number 0)) (.complex (.numeric 5 2))
          (.complex (.numeric 4 1)) (.setToValue "0")) := by
  have found : lookupOldType "order" "price" [orderTable] = some (.complex (.numeric 5 2)) := by
    decide
  refine narrowing_prepares_iff found (by decide) (by rfl) ?_
  rintro value - v same
  obtain rfl := Option.some.inj same
  exact (by decide +kernel : (Value.number 0).Fits (.complex (.numeric 4 1)))

/-- The only row holds 100.00, which is no number of three digits one of which is a decimal
    place. It is as it was when it is rounded to one place, so it is not deleted. -/
theorem wide_price_stays :
    lookupOldType "order" "price" [orderTable] = some (.complex (.numeric 5 2)) ∧
      buildNarrowingPreprocess .postgres "order" "price" (.complex (.numeric 3 1)) .delete
          [orderTable] =
        .ok [(RowChange.delete (.roundsOff 1)).statement .postgres "order" "price"] ∧
      Cell.Fits (.complex (.numeric 5 2)) (some (.number 100)) ∧
      (RowChange.delete (.roundsOff 1)).run .postgres (fun _ => none) (.complex (.numeric 5 2))
          [some (.number 100)] = some [some (.number 100)] ∧
      ¬ Cell.Fits (.complex (.numeric 3 1)) (some (.number 100)) := by
  refine ⟨by decide, by rfl, ?_, ?_, ?_⟩
  · rintro v same
    obtain rfl := Option.some.inj same
    decide +kernel
  · decide +kernel
  · intro fits
    exact absurd (fits (.number 100) rfl) (by decide +kernel)

end Vespertide
