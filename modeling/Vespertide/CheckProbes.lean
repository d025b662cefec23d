import Mathlib
import Vespertide.ContradictionSound
import Vespertide.Support.OrderProbes

/-!
Finitely many rows that stand for all: the truth of an expression depends only on
how the cells of its columns lie to its literals.
-/
namespace Vespertide

open ThreeValued OrderProbes

/-! Cells -/

def CheckLiteral.content : CheckLiteral → Option (List Char)
  | .string quoted => some (stringContent quoted)
  | _ => none

/-- NULL, both booleans, and values at, between and around the literals. -/
def cellProbes (literals : List CheckLiteral) : List (Option SqlValue) :=
  [none, some (.bool false), some (.bool true)] ++
    (fieldProbes (literals.filterMap CheckLiteral.number)).map (fun q => some (.number q)) ++
    (successorProbes [] (· ++ ['\x00']) (literals.filterMap CheckLiteral.content)).map
      fun s => some (.text s)

def CellAlike (literals : List CheckLiteral) (v w : Option SqlValue) : Prop :=
  v.isNone = w.isNone ∧ ∀ literal ∈ literals, ∀ op,
    compareTruth op v literal.value = compareTruth op w literal.value

theorem text_covers (marks : List (List Char)) :
    Covers (successorProbes [] (· ++ ['\x00']) marks) marks := by
  refine successor_covers [] (· ++ ['\x00']) (fun s => not_lt.mp (List.not_lt_nil s))
    (fun s => ?_) no_text_between marks
  induction s with
  | nil => exact List.nil_lt_cons _ _
  | cons c s ih => exact List.cons_lt_cons_iff.mpr (.inr ⟨rfl, ih⟩)

theorem cell_probe (literals : List CheckLiteral) (v : Option SqlValue) :
    ∃ p ∈ cellProbes literals, CellAlike literals v p := by
  cases v with
  | none => exact ⟨none, by simp [cellProbes], rfl, fun _ _ _ => rfl⟩
  | some v =>
    cases v with
    | bool b =>
      refine ⟨some (.bool b), ?_, rfl, fun _ _ _ => rfl⟩
      cases b <;> simp [cellProbes]
    | number q =>
      obtain ⟨p, probe, alike⟩ := field_covers (literals.filterMap CheckLiteral.number) q
      refine ⟨some (.number p), by simp [cellProbes, probe], rfl, fun literal mem op => ?_⟩
      cases number : literal.number with
      | none => cases literal <;> first | rfl | cases number
      | some x =>
        have same := alike x (List.mem_filterMap.mpr ⟨literal, mem, number⟩)
        rw [number_value number]
        simp only [compareTruth, SqlValue.order, orderOf, same]
    | text s =>
      obtain ⟨p, probe, alike⟩ := text_covers (literals.filterMap CheckLiteral.content) s
      refine ⟨some (.text p), by simp [cellProbes, probe], rfl, fun literal mem op => ?_⟩
      cases literal with
      | string quoted =>
        have same := alike (stringContent quoted) (List.mem_filterMap.mpr ⟨_, mem, rfl⟩)
        simp only [compareTruth, CheckLiteral.value, SqlValue.order, orderOf, same]
      | _ => rfl

/-! Rows -/

mutual

def CheckExpr.columnNames : CheckExpr → List String
  | .compare column _ _ => [column]
  | .in column _ _ => [column]
  | .between column _ _ _ => [column]
  | .isNull column _ => [column]
  | .and parts => columnNamesOf parts
  | .or parts => columnNamesOf parts
  | .not inner => inner.columnNames
  | .unparseable => []
termination_by structural expr => expr

def columnNamesOf : List CheckExpr → List String
  | [] => []
  | part :: rest => part.columnNames ++ columnNamesOf rest
termination_by structural parts => parts

end

section Alike
variable {literals : List CheckLiteral} {row row' : CheckRow}

mutual

theorem truth_alike (expr : CheckExpr) (known : ∀ literal ∈ expr.literals, literal ∈ literals)
    (alike : ∀ column ∈ expr.columnNames, CellAlike literals (row column) (row' column)) :
    expr.truth row = expr.truth row' := by
  match expr with
  | .compare column op value =>
    exact (alike column (by simp [CheckExpr.columnNames])).2 value
      (known value (by simp [CheckExpr.literals])) op
  | .in column values negated =>
    have cells := alike column (by simp [CheckExpr.columnNames])
    have same : (values.map fun value => compareTruth .eq (row column) value.value) =
        values.map fun value => compareTruth .eq (row' column) value.value :=
      List.map_congr_left fun value mem =>
        cells.2 value (known value (by simpa [CheckExpr.literals] using mem)) .eq
    rw [CheckExpr.truth, CheckExpr.truth, same]
  | .between column low high negated =>
    have cells := alike column (by simp [CheckExpr.columnNames])
    rw [CheckExpr.truth, CheckExpr.truth, cells.2 low (known low (by simp [CheckExpr.literals])),
      cells.2 high (known high (by simp [CheckExpr.literals]))]
  | .isNull column negated =>
    rw [CheckExpr.truth, CheckExpr.truth, (alike column (by simp [CheckExpr.columnNames])).1]
  | .and parts =>
    rw [CheckExpr.truth, CheckExpr.truth, truths_alike parts known alike]
  | .or parts =>
    rw [CheckExpr.truth, CheckExpr.truth, truths_alike parts known alike]
  | .not inner =>
    rw [CheckExpr.truth, CheckExpr.truth, truth_alike inner known alike]
  | .unparseable => rfl

theorem truths_alike (parts : List CheckExpr) (known : ∀ literal ∈ literalsOf parts, literal ∈ literals)
    (alike : ∀ column ∈ columnNamesOf parts, CellAlike literals (row column) (row' column)) :
    truths row parts = truths row' parts := by
  match parts with
  | [] => rfl
  | part :: rest =>
    rw [truths, truths,
      truth_alike part (fun literal mem => known literal (List.mem_append_left _ mem))
        fun column mem => alike column (List.mem_append_left _ mem),
      truths_alike rest (fun literal mem => known literal (List.mem_append_right _ mem))
        fun column mem => alike column (List.mem_append_right _ mem)]

end

end Alike

/-- Every assignment of the probes to the columns; the others are NULL. -/
def probeRows (probes : List (Option SqlValue)) : List String → List CheckRow
  | [] => [fun _ => none]
  | column :: columns =>
      (probeRows probes columns).flatMap fun row =>
        probes.map fun p => Function.update row column p

theorem probe_row {probes : List (Option SqlValue)} (choice : String → Option SqlValue)
    (chosen : ∀ column, choice column ∈ probes) (columns : List String) :
    ∃ row ∈ probeRows probes columns, ∀ column ∈ columns, row column = choice column := by
  induction columns with
  | nil => exact ⟨fun _ => none, List.mem_singleton_self _, by simp⟩
  | cons column columns ih =>
    obtain ⟨row, mem, same⟩ := ih
    refine ⟨Function.update row column (choice column), ?_, fun c held => ?_⟩
    · exact List.mem_flatMap.mpr ⟨row, mem, List.mem_map_of_mem (chosen column)⟩
    · by_cases here : c = column
      · rw [here, Function.update_self]
      · rw [Function.update_of_ne here]
        exact same c (List.mem_of_ne_of_mem here held)

def pairProbes (a b : CheckExpr) : List CheckRow :=
  probeRows (cellProbes (a.literals ++ b.literals)) (a.columnNames ++ b.columnNames)

theorem mem_column_names {parts : List CheckExpr} {column : String} :
    column ∈ columnNamesOf parts ↔ ∃ part ∈ parts, column ∈ part.columnNames := by
  induction parts with
  | nil => simp [columnNamesOf]
  | cons part rest ih => simp [columnNamesOf, ih]

/-- An expression over columns and literals of another. -/
def CheckExpr.Within (part whole : CheckExpr) : Prop :=
  part.literals ⊆ whole.literals ∧ part.columnNames ⊆ whole.columnNames

theorem pair_probe (a b : CheckExpr) (row : CheckRow) :
    ∃ probe ∈ pairProbes a b, ∀ expr : CheckExpr, expr.Within a ∨ expr.Within b →
      expr.truth row = expr.truth probe := by
  choose choice chosen alike using fun column =>
    cell_probe (a.literals ++ b.literals) (row column)
  obtain ⟨probe, mem, same⟩ := probe_row choice chosen (a.columnNames ++ b.columnNames)
  refine ⟨probe, mem, fun expr within => ?_⟩
  have known : ∀ literal ∈ expr.literals, literal ∈ a.literals ++ b.literals := by
    rcases within with within | within
    · exact fun literal here => List.mem_append_left _ (within.1 here)
    · exact fun literal here => List.mem_append_right _ (within.1 here)
  have held : ∀ column ∈ expr.columnNames, column ∈ a.columnNames ++ b.columnNames := by
    rcases within with within | within
    · exact fun column here => List.mem_append_left _ (within.2 here)
    · exact fun column here => List.mem_append_right _ (within.2 here)
  refine truth_alike expr known fun column here => ?_
  rw [same column (held column here)]
  exact alike column

end Vespertide
