import Mathlib.Data.List.Basic
import Vespertide.FillText
import Vespertide.SqliteRebuild

/-!
The rows of a table to which a column is added. The statements of each backend
are run over stored rows; what an expression is worth is left to the engine.
-/
namespace Vespertide
open Registry SqlRows

/-! Stored tables -/

structure StoredTable (V : Type) where
  columns : List SeaColumnDef
  rows : List (Row String V)

abbrev Storage (V : Type) := Names String (StoredTable V)

def StoredTable.columnNames {V : Type} (t : StoredTable V) : List String := t.columns.map (·.name)

/-- What the statements leave to the database; `none` is a statement it refuses. -/
structure Engine (V : Type) where
  /-- an expression on a row, as a column of the type stores it -/
  value : ColumnType → String → Row String V → Option (Option V)
  /-- what MySQL puts into a required column that has no default -/
  implied : SeaColumnDef → Option (Option V)
  /-- what a key stores where it is given no value -/
  numbered : SeaColumnDef → Row String V → Option (Option V)
  refuses : Storage V → BuiltQuery → Bool

section Run
variable {V : Type} (lowercase : List Char → List Char) (engine : Engine V)
  (backend : DatabaseBackend)

def Engine.store (c : SeaColumnDef) (row : Row String V) : Option V → Option (Option V)
  | some v => some (some v)
  | none =>
      if c.primaryKey then engine.numbered c row else if c.notNull then none else some none

def Engine.reads (type : ColumnType) (text : Option String) (row : Row String V) :
    Option (Option V) :=
  match text with
  | some expr => engine.value type expr row
  | none => some none

def Engine.cell (c : SeaColumnDef) (text : Option String) (row : Row String V) :
    Option (Option V) :=
  (engine.reads c.type text row).bind (engine.store c row)

def Engine.addedCell (c : SeaColumnDef) (row : Row String V) : Option (Option V) :=
  match c.defaultText lowercase backend with
  | some expr => engine.cell c (some expr) row
  | none => if c.notNull ∧ backend = .mySql then engine.implied c else engine.cell c none row

def fillRows (column : String) (f : Row String V → Option (Option V)) :
    List (Row String V) → Option (List (Row String V))
  | [] => some []
  | row :: rest =>
      (f row).bind fun v => (fillRows column f rest).map (Function.update row column v :: ·)

def onStored (db : Storage V) (table : String)
    (f : StoredTable V → Option (StoredTable V)) : Option (Storage V) :=
  ((db table).bind f).map fun t => Function.update db table (some t)

def restrictRow (columns : List String) (row : Row String V) : Row String V :=
  fun column => if column ∈ columns then row column else none

/-- The statements of an added column; no other is sent for one. -/
def Engine.run (db : Storage V) (q : BuiltQuery) : Option (Storage V) :=
  if engine.refuses db q then none
  else
    match q with
    | .createTable stmt => create db stmt.table ⟨stmt.columns, []⟩
    | .dropTable table => drop db table
    | .renameTable old new => rename db old new
    | .createIndex _ | .createEnumType _ => some db
    | .addColumn table c =>
        onStored db table fun t =>
          if c.name ∈ t.columnNames then none
          else
            (fillRows c.name (engine.addedCell lowercase backend c) t.rows).map
              (⟨t.columns ++ [c], ·⟩)
    | .fillColumn table column expr nullsOnly =>
        onStored db table fun t =>
          (t.columns.find? (·.name = column)).bind fun c =>
            (fillRows column (fun row =>
              if nullsOnly ∧ (row column).isSome then some (row column)
              else engine.cell c (some (convertFillWithForBackend lowercase expr backend)) row)
              t.rows).map (⟨t.columns, ·⟩)
    | .modifyColumn table c _ =>
        onStored db table fun t =>
          if c.notNull ∧ ∃ row ∈ t.rows, (row c.name).isNone then none
          else some ⟨t.columns.map fun old => if old.name = c.name then c else old, t.rows⟩
    | .copyRowsFilling target source columns column type fill =>
        (db source).bind fun s =>
          if columns ⊆ s.columnNames then
            onStored db target fun t =>
              (t.columns.find? (·.name = column)).bind fun c =>
                (fillRows column (fun row =>
                  (engine.reads type (fill.text lowercase backend type) row).bind
                    (engine.store c row)) (s.rows.map (restrictRow columns))).map
                  (⟨t.columns, t.rows ++ ·⟩)
          else none
    | _ => none

end Run

/-! Where the value comes from -/

section Source
variable (lowercase : List Char → List Char) (backend : DatabaseBackend) (added : ColumnDef)
  (fillWith : Option String)

def AddedByRebuild : Prop := backend = .sqlite ∧ (!added.nullable ∨ added.type.isEnum)

instance : Decidable (AddedByRebuild backend added) := inferInstanceAs (Decidable (_ ∧ _))

def fillSent (fill : String) : String :=
  let converted := convertFillWithForBackend lowercase fill backend
  if backend = .sqlite then normalizeEnumDefault added.type converted else converted

def defaultSent : Option String :=
  if AddedByRebuild backend added then
    ((added.default.map .default).getD FillValue.null).text lowercase backend added.type
  else (buildSeaColumnDef added).defaultText lowercase backend

/-- A `fill_with` is meant for a required column without a default. -/
def needsFill : Bool := !added.nullable && added.default.isNone

def claimedText : Option String :=
  match normalizeFillWith fillWith with
  | some fill => some (fillSent lowercase backend added fill)
  | none => defaultSent lowercase backend added

def settledText : Option String :=
  if needsFill added then claimedText lowercase backend added fillWith
  else defaultSent lowercase backend added

def sentText : Option String :=
  if needsFill added ∨ AddedByRebuild backend added then
    claimedText lowercase backend added fillWith
  else defaultSent lowercase backend added

/-- SQLite takes a `fill_with` that the other backends set aside. -/
def FillMeant : Prop := fillWith = none ∨ needsFill added ∨ (added.nullable ∧ !added.type.isEnum)

theorem sent_as_meant (meant : FillMeant added fillWith) :
    sentText lowercase backend added fillWith = settledText lowercase backend added fillWith := by
  unfold sentText settledText
  by_cases needs : needsFill added = true
  · simp [needs]
  · simp only [needs, Bool.false_eq_true, ↓reduceIte, false_or]
    split
    · rename_i rebuilt
      rcases meant with absent | meant | ⟨nullable, plain⟩
      · simp [claimedText, absent, normalizeFillWith]
      · exact absurd meant needs
      · simp only [Bool.not_eq_true', AddedByRebuild, nullable] at plain rebuilt
        simp [plain] at rebuilt
    · rfl

end Source

/-! Rows filled -/

section Filled
variable {V : Type}

theorem fill_rows_some {column : String} {f : Row String V → Option (Option V)}
    {rows filled : List (Row String V)} (ran : fillRows column f rows = some filled) :
    (∀ row ∈ rows, ∃ v, f row = some v) ∧
      filled = rows.map fun row => Function.update row column ((f row).getD none) := by
  induction rows generalizing filled with
  | nil =>
    obtain rfl := Option.some.inj ran
    simp
  | cons row rest ih =>
    obtain ⟨v, own, later⟩ := Option.bind_eq_some_iff.mp ran
    obtain ⟨rest', filled_rest, rfl⟩ := Option.map_eq_some_iff.mp later
    obtain ⟨all, rfl⟩ := ih filled_rest
    exact ⟨List.forall_mem_cons.mpr ⟨⟨v, own⟩, all⟩, by simp [own]⟩

theorem store_some {engine : Engine V} {c : SeaColumnDef} {row : Row String V} {v w : Option V}
    (stored : engine.store c row v = some w) (unkeyed : v = none → c.primaryKey = false) :
    w = v ∧ (v = none → c.notNull = false) := by
  cases v with
  | some x =>
    obtain rfl := Option.some.inj stored
    simp
  | none =>
    simp only [Engine.store, unkeyed rfl, Bool.false_eq_true, ↓reduceIte] at stored
    split at stored
    · cases stored
    · rename_i open_
      obtain rfl := Option.some.inj stored
      simpa using open_

theorem cell_some {engine : Engine V} {c : SeaColumnDef} {row : Row String V}
    {text : Option String} {w : Option V} (ran : engine.cell c text row = some w)
    (unkeyed : engine.reads c.type text row = some none → c.primaryKey = false) :
    engine.reads c.type text row = some w ∧ (w = none → c.notNull = false) := by
  obtain ⟨v, read, stored⟩ := Option.bind_eq_some_iff.mp ran
  obtain ⟨rfl, required⟩ := store_some stored (by
    rintro rfl
    exact unkeyed read)
  exact ⟨read, required⟩

end Filled

end Vespertide
