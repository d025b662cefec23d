import Vespertide.ActionQueries
import Vespertide.ColumnEdits
import Mathlib.Data.Multiset.MapFold

/-!
The rows of an integer enum whose values move. One `UPDATE` with a `CASE` reads
every row before it writes any, so swaps and cycles go through, and the replay
gives the variants the values their rows get.
-/
namespace Vespertide

/-- `UPDATE table SET column = CASE arms END WHERE column IN (inList)` -/
structure Restamp where
  arms : List (Int × Int)
  inList : List Int
  deriving DecidableEq, Repr

def Restamp.text (s : Restamp) (backend : DatabaseBackend) (table column : String) : String :=
  let qc := quoteIdent column backend
  let arms := " ".intercalate (s.arms.map fun (old, new) => s!"WHEN {qc} = {old} THEN {new}")
  let inList := ", ".intercalate (s.inList.map toString)
  "UPDATE " ++ quoteIdent table backend ++ " SET " ++ qc ++ " = CASE " ++ arms ++ " END WHERE " ++
    qc ++ " IN (" ++ inList ++ ")"

/-- A `CASE` without `ELSE`: the first arm that matches, `NULL` where none does. -/
def caseValue : List (Int × Int) → Int → Option Int
  | [], _ => none
  | (old, new) :: arms, v => if v = old then some new else caseValue arms v

/-- The cell a row has afterwards. `NULL IN (…)` is not true. -/
def Restamp.onCell (s : Restamp) : Option Int → Option Int
  | none => none
  | some v => if v ∈ s.inList then caseValue s.arms v else some v

/-- A row is the cell of the column and whatever else it holds. -/
def Restamp.run {ρ : Type} (s : Restamp) (rows : Multiset (Option Int × ρ)) :
    Multiset (Option Int × ρ) := rows.map fun r => (s.onCell r.1, r.2)

def runRestamps {ρ : Type} (statements : List Restamp) (rows : Multiset (Option Int × ρ)) :
    Multiset (Option Int × ρ) := statements.foldl (fun rows s => s.run rows) rows

def restamps (mapping : List (Int × Int)) : List Restamp :=
  if mapping = [] then [] else [⟨mapping, mapping.map (·.1)⟩]

def restamped (mapping : List (Int × Int)) (v : Int) : Int := (mapping.lookup v).getD v

theorem remap_queries_are_restamps (backend : DatabaseBackend) (table column : String)
    (mapping : List (Int × Int)) :
    buildRemapEnumValues backend table column mapping =
      (restamps mapping).map fun s => .changeRows table (s.text backend table column) := by
  unfold buildRemapEnumValues restamps
  split
  · rfl
  · rw [List.map_singleton]
    delta Restamp.text
    rw [List.map_map]
    rfl

/-! One statement -/

theorem case_value_lookup (arms : List (Int × Int)) (v : Int) :
    caseValue arms v = arms.lookup v := by
  induction arms with
  | nil => rfl
  | cons arm arms ih =>
    obtain ⟨old, new⟩ := arm
    by_cases here : v = old
    · subst here
      simp [caseValue]
    · simp [caseValue, here, List.lookup_cons, beq_false_of_ne here, ih]

/-- The arms and the `IN` list cover the same values, so no cell falls off the
    end of the `CASE`. -/
theorem on_cell_restamped (mapping : List (Int × Int)) (cell : Option Int) :
    (Restamp.mk mapping (mapping.map (·.1))).onCell cell = cell.map (restamped mapping) := by
  cases cell with
  | none => rfl
  | some v =>
    simp only [Restamp.onCell, Option.map_some, restamped, case_value_lookup]
    cases found : mapping.lookup v with
    | none =>
      have outside : v ∉ mapping.map (·.1) := by
        rintro covered
        obtain ⟨p, mem, same⟩ := List.mem_map.mp covered
        have other := List.lookup_eq_none_iff.mp found p mem
        simp [same] at other
      rw [if_neg outside, Option.getD_none]
    | some new =>
      have inside : v ∈ mapping.map (·.1) := by
        obtain ⟨before, after, split, _⟩ := List.lookup_eq_some_iff.mp found
        rw [split]
        simp
      rw [if_pos inside, Option.getD_some]

theorem run_restamps {ρ : Type} (mapping : List (Int × Int)) (rows : Multiset (Option Int × ρ)) :
    runRestamps (restamps mapping) rows =
      rows.map fun r => (r.1.map (restamped mapping), r.2) := by
  unfold restamps
  split
  · rename_i empty
    have still : restamped mapping = id := by
      funext v
      simp [restamped, empty]
    simp [runRestamps, still]
  · simp only [runRestamps, List.foldl_cons, List.foldl_nil, Restamp.run, on_cell_restamped]

/-! The mapping of two definitions -/

section Mapping
variable {fromName toName : String} {fromItems toItems : List NumValue}

/-- Only a variant that shares its name with a variant of the target moves. -/
theorem restamped_source {v : Int}
    (moved : restamped (computeIntegerEnumRemapping (.complex (.enum fromName (.integer fromItems)))
      (.complex (.enum toName (.integer toItems)))) v ≠ v) :
    ∃ i ∈ fromItems, i.value = v ∧ i.name ∈ toItems.map (·.name) := by
  by_cases same : fromItems = toItems
  · simp [computeIntegerEnumRemapping, same, restamped] at moved
  · rw [mapping_eq same] at moved
    rcases remapped_cases fromItems toItems v with mem | ⟨kept, _⟩
    · obtain ⟨i, here, value, found, _⟩ := mem_changed_values.mp mem
      obtain ⟨j, got, _⟩ := Option.map_eq_some_iff.mp found
      obtain ⟨there, named⟩ := KeyedView.get_some got
      exact ⟨i, here, value, List.mem_map.mpr ⟨j, there, named⟩⟩
    · exact absurd kept moved

theorem restamped_shared (fromName toName : String)
    (distinct : (fromItems.map (·.value)).Nodup) {i : NumValue} (mem : i ∈ fromItems)
    (shared : i.name ∈ toItems.map (·.name)) :
    ∃ j ∈ toItems, j.name = i.name ∧
      restamped (computeIntegerEnumRemapping (.complex (.enum fromName (.integer fromItems)))
        (.complex (.enum toName (.integer toItems)))) i.value = j.value := by
  by_cases same : fromItems = toItems
  · exact ⟨i, same ▸ mem, rfl, by simp [computeIntegerEnumRemapping, same, restamped]⟩
  · rw [mapping_eq same]
    obtain ⟨named, there, sameName⟩ := List.mem_map.mp shared
    obtain ⟨j, found⟩ := Option.isSome_iff_exists.mp
      (KeyedView.get_isSome_iff.mpr ⟨named, there, sameName⟩ :
        (KeyedView.get NumValue.name toItems i.name).isSome)
    have given : valueByName toItems i.name = some j.value := by simp [valueByName, found]
    obtain ⟨present, jName⟩ := KeyedView.get_some found
    refine ⟨j, present, jName, ?_⟩
    change remapped fromItems toItems i.value = j.value
    rcases remapped_cases fromItems toItems i.value with moved | ⟨kept, still⟩
    · obtain ⟨i', here, value, found', _⟩ := mem_changed_values.mp moved
      obtain rfl := List.inj_on_of_nodup_map distinct here mem value
      exact Option.some.inj (found'.symm.trans given)
    · rw [kept]
      by_contra changed
      exact still j.value (mem_changed_values.mpr ⟨i, mem, rfl, given, Ne.symm changed⟩)

end Mapping

/-- The statement, the mapping and the replay agree: the rows move all at once
    by the mapping, shared variants to their new values and apart from each other. -/
theorem enum_restamp_agrees (backend : DatabaseBackend) (table column fromName toName : String)
    (fromItems toItems : List NumValue) (distinct : (fromItems.map (·.value)).Nodup)
    (toDistinct : (toItems.map (·.value)).Nodup) :
    let m := computeIntegerEnumRemapping (.complex (.enum fromName (.integer fromItems)))
      (.complex (.enum toName (.integer toItems)))
    buildRemapEnumValues backend table column m =
        (restamps m).map (fun s => .changeRows table (s.text backend table column)) ∧
      (∀ {ρ : Type} (rows : Multiset (Option Int × ρ)),
        runRestamps (restamps m) rows = rows.map fun r => (r.1.map (restamped m), r.2)) ∧
      remapItems m fromItems = fromItems.map (fun i => { i with value := restamped m i.value }) ∧
      (∀ v, (∀ i ∈ fromItems, i.name ∈ toItems.map (·.name) → i.value ≠ v) → restamped m v = v) ∧
      (∀ i ∈ fromItems, ∀ j ∈ toItems, i.name = j.name →
        (∀ other ∈ toItems, other.name = j.name → other = j) → restamped m i.value = j.value) ∧
      (∀ i ∈ fromItems, ∀ i' ∈ fromItems, i.name ≠ i'.name → i.name ∈ toItems.map (·.name) →
        i'.name ∈ toItems.map (·.name) → restamped m i.value ≠ restamped m i'.value) := by
  refine ⟨remap_queries_are_restamps backend table column _, run_restamps _, rfl, ?_, ?_, ?_⟩
  · intro v outside
    by_contra moved
    obtain ⟨i, mem, value, shared⟩ := restamped_source moved
    exact outside i mem shared value
  · intro i mem j there named only
    obtain ⟨j', present, sameName, ends⟩ :=
      restamped_shared fromName toName distinct mem
        (List.mem_map.mpr ⟨j, there, named.symm⟩)
    rw [ends, only j' present (sameName.trans named)]
  · intro i mem i' mem' different shared shared'
    obtain ⟨j, there, named, ends⟩ :=
      restamped_shared fromName toName distinct mem shared
    obtain ⟨j', there', named', ends'⟩ :=
      restamped_shared fromName toName distinct mem' shared'
    rw [ends, ends']
    intro equal
    obtain rfl := List.inj_on_of_nodup_map toDistinct there there' equal
    exact different (named.symm.trans named')

/-- A swap, beside a variant that stays and one that leaves. -/
theorem swapped_priorities :
    runRestamps (restamps (computeIntegerEnumRemapping
        (.complex (.enum "priority" (.integer [⟨"low", 5⟩, ⟨"high", 10⟩, ⟨"gone", 7⟩, ⟨"none", 0⟩])))
        (.complex (.enum "priority" (.integer [⟨"none", 0⟩, ⟨"high", 5⟩, ⟨"low", 10⟩])))))
      {(some 5, 1), (some 10, 2), (some 7, 3), (some 0, 4), (none, 5)} =
    {(some 10, 1), (some 5, 2), (some 7, 3), (some 0, 4), (none, 5)} :=
  ((enum_restamp_agrees .postgres "tickets" "priority" "priority" "priority"
    [⟨"low", 5⟩, ⟨"high", 10⟩, ⟨"gone", 7⟩, ⟨"none", 0⟩] [⟨"none", 0⟩, ⟨"high", 5⟩, ⟨"low", 10⟩]
    (by decide) (by decide)).2.1 _).trans (by decide +kernel)

end Vespertide
