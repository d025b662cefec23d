import Vespertide.ColumnView
import Vespertide.DropResolution
import Vespertide.Support.Footprints

/-!
What a rewrite of a drop and an addition changes. The pair and the rename that
replaces it keep to one region of the schema, so they commute with all that happens
between them, and the columns come out alike but for what a rename carries over.
-/
namespace Vespertide
open Footprints

/-! The rewrite of a list -/

theorem find_idx_split {p : MigrationAction → Bool} {before after : List MigrationAction}
    {x : MigrationAction} (skips : ∀ b ∈ before, p b = false) (here : p x = true) :
    (before ++ x :: after).findIdx? p = some before.length := by
  induction before with
  | nil => simp [List.findIdx?_cons, here]
  | cons b rest ih =>
    obtain ⟨first, later⟩ := List.forall_mem_cons.mp skips
    simp [List.findIdx?_cons, first, ih later]

section Pair
variable {touched isDrop isAddition : MigrationAction → Bool} {drop addition : MigrationAction}

/-- A drop and an addition that the tests tell apart from each other, and a region from
    everything else. -/
structure DropPair (touched isDrop isAddition : MigrationAction → Bool)
    (drop addition : MigrationAction) : Prop where
  drops : isDrop drop = true
  adds : isAddition addition = true
  drop_inside : touched drop = true
  addition_inside : touched addition = true
  not_drop : isDrop addition = false
  not_addition : isAddition drop = false
  drop_touches : ∀ a, touched a = false → isDrop a = false
  addition_touches : ∀ a, touched a = false → isAddition a = false

def PairAlone (touched : MigrationAction → Bool) (drop addition : MigrationAction)
    (actions : List MigrationAction) : Prop :=
  actions.filter touched = [drop, addition] ∨ actions.filter touched = [addition, drop]

theorem rewrite_pair (paired : DropPair touched isDrop isAddition drop addition)
    {actions : List MigrationAction} (alone : PairAlone touched drop addition actions)
    (dropMissing additionMissing : String) (replacement : MigrationAction → List MigrationAction) :
    ∃ before between after x y, actions = before ++ x :: between ++ y :: after ∧
      (x = drop ∧ y = addition ∨ x = addition ∧ y = drop) ∧
      (∀ b ∈ before ++ between ++ after, touched b = false) ∧
      rewritePair isDrop isAddition dropMissing additionMissing replacement actions =
        .ok (before ++ replacement addition ++ between ++ after) := by
  have erased : ∀ (before between after : List MigrationAction) (x y : MigrationAction),
      ((before ++ x :: between ++ y :: after).eraseIdx (before ++ x :: between).length).eraseIdx
        before.length = before ++ (between ++ after) := by
    intro before between after x y
    rw [List.eraseIdx_append_of_length_le (Nat.le_refl _), Nat.sub_self, List.eraseIdx_cons_zero,
      List.append_assoc, List.eraseIdx_append_of_length_le (Nat.le_refl _), Nat.sub_self]
    rfl
  rcases alone with pair | pair
  · obtain ⟨before, between, after, rfl, untouched⟩ := filter_pair pair
    refine ⟨before, between, after, drop, addition, rfl, .inl ⟨rfl, rfl⟩, untouched, ?_⟩
    have first : (before ++ drop :: between ++ addition :: after).findIdx? isDrop =
        some before.length := by
      rw [List.append_assoc]
      exact find_idx_split (fun b mem => paired.drop_touches b (untouched b (by simp [mem])))
        paired.drops
    have second : (before ++ drop :: between ++ addition :: after).findIdx? isAddition =
        some (before ++ drop :: between).length := by
      refine find_idx_split (fun b mem => ?_) paired.adds
      rcases List.mem_append.mp mem with early | late
      · exact paired.addition_touches b (untouched b (by simp [early]))
      · rcases List.mem_cons.mp late with rfl | inside
        · exact paired.not_addition
        · exact paired.addition_touches b (untouched b (by simp [inside]))
    have ordered : before.length ≤ (before ++ drop :: between).length := by simp
    simp only [rewritePair, first, second, min_eq_left ordered, max_eq_right ordered, erased]
    simp
  · obtain ⟨before, between, after, rfl, untouched⟩ := filter_pair pair
    refine ⟨before, between, after, addition, drop, rfl, .inr ⟨rfl, rfl⟩, untouched, ?_⟩
    have first : (before ++ addition :: between ++ drop :: after).findIdx? isAddition =
        some before.length := by
      rw [List.append_assoc]
      exact find_idx_split (fun b mem => paired.addition_touches b (untouched b (by simp [mem])))
        paired.adds
    have second : (before ++ addition :: between ++ drop :: after).findIdx? isDrop =
        some (before ++ addition :: between).length := by
      refine find_idx_split (fun b mem => ?_) paired.drops
      rcases List.mem_append.mp mem with early | late
      · exact paired.drop_touches b (untouched b (by simp [early]))
      · rcases List.mem_cons.mp late with rfl | inside
        · exact paired.not_drop
        · exact paired.drop_touches b (untouched b (by simp [inside]))
    have ordered : before.length ≤ (before ++ addition :: between).length := by simp
    simp only [rewritePair, first, second, min_eq_right ordered, max_eq_left ordered, erased]
    simp

theorem rewrite_parts (paired : DropPair touched isDrop isAddition drop addition)
    {actions : List MigrationAction} (alone : PairAlone touched drop addition actions)
    {replacement : MigrationAction → List MigrationAction}
    (within : ∀ b ∈ replacement addition, touched b = true)
    (dropMissing additionMissing : String) :
    ∃ rewritten, rewritePair isDrop isAddition dropMissing additionMissing replacement actions =
        .ok rewritten ∧
      rewritten.filter touched = replacement addition ∧
      (∀ q : MigrationAction → Bool, q drop = false → q addition = false →
        (∀ b ∈ replacement addition, q b = false) → rewritten.filter q = actions.filter q) ∧
      ∀ b ∈ rewritten, b ∈ actions ∨ b ∈ replacement addition := by
  obtain ⟨before, between, after, x, y, rfl, which, untouched, rewritten⟩ :=
    rewrite_pair paired alone dropMissing additionMissing replacement
  refine ⟨_, rewritten, ?_, ?_, ?_⟩
  · simp only [List.forall_mem_append] at untouched
    obtain ⟨⟨none_before, none_between⟩, none_after⟩ := untouched
    have gone : ∀ {bs : List MigrationAction}, (∀ b ∈ bs, touched b = false) →
        bs.filter touched = [] := by
      intro bs none_there
      rw [List.filter_eq_nil_iff]
      intro b mem
      simp [none_there b mem]
    rw [List.filter_append, List.filter_append, List.filter_append, gone none_before,
      gone none_between, gone none_after, List.filter_eq_self.mpr within]
    simp
  · intro q off_drop off_addition off
    have gone : (replacement addition).filter q = [] := by
      rw [List.filter_eq_nil_iff]
      intro b mem
      simp [off b mem]
    have none_here : q x = false ∧ q y = false := by
      rcases which with ⟨rfl, rfl⟩ | ⟨rfl, rfl⟩
      · exact ⟨off_drop, off_addition⟩
      · exact ⟨off_addition, off_drop⟩
    simp [List.filter_append, gone, none_here]
  · intro b mem
    simp only [List.mem_append, List.mem_cons] at mem ⊢
    tauto

theorem erase_twice (xs : List MigrationAction) {lo hi : Nat} (ordered : lo ≤ hi) :
    ((xs.eraseIdx hi).eraseIdx lo).Sublist (xs.eraseIdx lo) := by
  induction xs generalizing lo hi with
  | nil => simp
  | cons x rest ih =>
    cases hi with
    | zero =>
      obtain rfl := Nat.le_zero.mp ordered
      simpa using List.eraseIdx_sublist rest 0
    | succ hi =>
      cases lo with
      | zero => simpa using List.eraseIdx_sublist rest hi
      | succ lo => simpa using (ih (Nat.le_of_succ_le_succ ordered)).cons_cons x

/-- A rewrite brings in nothing that passes a test which its replacements fail, and takes
    away an addition that passes it. -/
theorem rewrite_count {q : MigrationAction → Bool} {dropMissing additionMissing : String}
    {replacement : MigrationAction → List MigrationAction}
    {actions rewritten : List MigrationAction}
    (done : rewritePair isDrop isAddition dropMissing additionMissing replacement actions =
      .ok rewritten) (none_new : ∀ a, ∀ b ∈ replacement a, q b = false) :
    rewritten.countP q ≤ actions.countP q ∧
      (isAddition = q → rewritten.countP q + 1 ≤ actions.countP q) := by
  unfold rewritePair at done
  split at done
  · cases done
  · rename_i dropIdx _
    split at done
    · cases done
    · rename_i addIdx found
      obtain rfl := Except.ok.inj done
      have added_none : (actions[addIdx]?.toList.flatMap replacement).countP q = 0 := by
        rw [List.countP_eq_zero]
        intro b mem
        obtain ⟨a, _, new⟩ := List.mem_flatMap.mp mem
        simp [none_new a b new]
      have count : (((actions.eraseIdx (max dropIdx addIdx)).eraseIdx (min dropIdx addIdx)).take
          (min dropIdx addIdx) ++ actions[addIdx]?.toList.flatMap replacement ++
            ((actions.eraseIdx (max dropIdx addIdx)).eraseIdx (min dropIdx addIdx)).drop
              (min dropIdx addIdx)).countP q =
          ((actions.eraseIdx (max dropIdx addIdx)).eraseIdx (min dropIdx addIdx)).countP q := by
        rw [List.countP_append, List.countP_append, added_none, Nat.add_zero, ← List.countP_append,
          List.take_append_drop]
      have part : ((actions.eraseIdx (max dropIdx addIdx)).eraseIdx (min dropIdx addIdx)).Sublist
          (actions.eraseIdx addIdx) := by
        rcases Nat.le_total dropIdx addIdx with order | order
        · rw [max_eq_right order]
          exact List.eraseIdx_sublist _ _
        · rw [min_eq_right order]
          exact erase_twice actions (order.trans (Nat.le_max_left ..))
      rw [count]
      refine ⟨part.countP_le.trans (List.eraseIdx_sublist actions addIdx).countP_le, ?_⟩
      rintro rfl
      obtain ⟨inside, passes, _⟩ := List.findIdx?_eq_some_iff_getElem.mp found
      have whole := (List.getElem_cons_eraseIdx_perm inside).countP_eq isAddition
      rw [List.countP_cons_of_pos passes] at whole
      have fewer := part.countP_le (p := isAddition)
      omega

theorem mem_erased {xs : List MigrationAction} {i : Nat} {b x : MigrationAction}
    (here : xs[i]? = some x) (other : b ≠ x) (mem : b ∈ xs) : b ∈ xs.eraseIdx i := by
  obtain ⟨inside, rfl⟩ := List.getElem?_eq_some_iff.mp here
  have listed := (List.getElem_cons_eraseIdx_perm inside).mem_iff.mpr mem
  exact (List.mem_cons.mp listed).resolve_left other

theorem rewrite_mem {dropMissing additionMissing : String}
    {replacement : MigrationAction → List MigrationAction}
    {actions rewritten : List MigrationAction}
    (told : ∀ a, isDrop a = true → isAddition a = false)
    (done : rewritePair isDrop isAddition dropMissing additionMissing replacement actions =
      .ok rewritten) :
    (∀ b ∈ actions, isDrop b = false → isAddition b = false → b ∈ rewritten) ∧
      ∃ addition, isAddition addition = true ∧ ∀ b ∈ replacement addition, b ∈ rewritten := by
  unfold rewritePair at done
  split at done
  · cases done
  · rename_i dropIdx drop_found
    split at done
    · cases done
    · rename_i addIdx add_found
      obtain rfl := Except.ok.inj done
      obtain ⟨drop_inside, drops, _⟩ := List.findIdx?_eq_some_iff_getElem.mp drop_found
      obtain ⟨add_inside, adds, _⟩ := List.findIdx?_eq_some_iff_getElem.mp add_found
      have apart : dropIdx ≠ addIdx := by
        rintro rfl
        rw [told _ drops] at adds
        cases adds
      refine ⟨fun b mem no_drop no_addition => ?_, actions[addIdx], adds, fun b mem => ?_⟩
      · have not_drop : b ≠ actions[dropIdx] := fun same => by
          rw [same, drops] at no_drop
          cases no_drop
        have not_addition : b ≠ actions[addIdx] := fun same => by
          rw [same, adds] at no_addition
          cases no_addition
        have kept : b ∈ (actions.eraseIdx (max dropIdx addIdx)).eraseIdx (min dropIdx addIdx) := by
          rcases Nat.lt_or_gt_of_ne apart with order | order
          · rw [max_eq_right order.le, min_eq_left order.le]
            refine mem_erased ?_ not_drop
              (mem_erased (List.getElem?_eq_getElem add_inside) not_addition mem)
            rw [List.getElem?_eraseIdx_of_lt order, List.getElem?_eq_getElem drop_inside]
          · rw [max_eq_left order.le, min_eq_right order.le]
            refine mem_erased ?_ not_addition
              (mem_erased (List.getElem?_eq_getElem drop_inside) not_drop mem)
            rw [List.getElem?_eraseIdx_of_lt order, List.getElem?_eq_getElem add_inside]
        rw [← List.take_append_drop (min dropIdx addIdx)
          ((actions.eraseIdx (max dropIdx addIdx)).eraseIdx (min dropIdx addIdx))] at kept
        simp only [List.mem_append] at kept ⊢
        tauto
      · simp only [List.mem_append, List.mem_flatMap]
        refine .inl (.inr ⟨_, ?_, mem⟩)
        rw [List.getElem?_eq_getElem add_inside]
        simp

theorem erase_filter {q : MigrationAction → Bool} {xs : List MigrationAction} {i : Nat}
    (off : ∀ x, xs[i]? = some x → q x = false) : (xs.eraseIdx i).filter q = xs.filter q := by
  induction xs generalizing i with
  | nil => rfl
  | cons x rest ih =>
    cases i with
    | zero =>
      have here : q x = false := off x rfl
      simp [here]
    | succ i =>
      rw [List.eraseIdx_cons_succ, List.filter_cons, List.filter_cons,
        ih fun y found => off y (by simpa using found)]

theorem rewrite_filter {q : MigrationAction → Bool} {dropMissing additionMissing : String}
    {replacement : MigrationAction → List MigrationAction}
    {actions rewritten : List MigrationAction}
    (told : ∀ a, isDrop a = true → isAddition a = false)
    (done : rewritePair isDrop isAddition dropMissing additionMissing replacement actions =
      .ok rewritten) (no_drop : ∀ a, isDrop a = true → q a = false)
    (no_addition : ∀ a, isAddition a = true → q a = false)
    (none_new : ∀ a, ∀ b ∈ replacement a, q b = false) :
    rewritten.filter q = actions.filter q := by
  unfold rewritePair at done
  split at done
  · cases done
  · rename_i dropIdx drop_found
    split at done
    · cases done
    · rename_i addIdx add_found
      obtain rfl := Except.ok.inj done
      obtain ⟨drop_inside, drops, _⟩ := List.findIdx?_eq_some_iff_getElem.mp drop_found
      obtain ⟨add_inside, adds, _⟩ := List.findIdx?_eq_some_iff_getElem.mp add_found
      have apart : dropIdx ≠ addIdx := by
        rintro rfl
        rw [told _ drops] at adds
        cases adds
      have off_drop : ∀ x, actions[dropIdx]? = some x → q x = false := by
        intro x here
        rw [List.getElem?_eq_getElem drop_inside] at here
        exact Option.some.inj here ▸ no_drop _ drops
      have off_addition : ∀ x, actions[addIdx]? = some x → q x = false := by
        intro x here
        rw [List.getElem?_eq_getElem add_inside] at here
        exact Option.some.inj here ▸ no_addition _ adds
      have brought : (actions[addIdx]?.toList.flatMap replacement).filter q = [] := by
        rw [List.filter_eq_nil_iff]
        intro b mem
        obtain ⟨a, _, new⟩ := List.mem_flatMap.mp mem
        simp [none_new a b new]
      have erased : ((actions.eraseIdx (max dropIdx addIdx)).eraseIdx
          (min dropIdx addIdx)).filter q = actions.filter q := by
        rcases Nat.lt_or_gt_of_ne apart with order | order
        · rw [max_eq_right order.le, min_eq_left order.le, erase_filter, erase_filter off_addition]
          rwa [List.getElem?_eraseIdx_of_lt order]
        · rw [max_eq_left order.le, min_eq_right order.le, erase_filter, erase_filter off_drop]
          rwa [List.getElem?_eraseIdx_of_lt order]
      rw [List.filter_append, List.filter_append, brought, List.append_nil, ← List.filter_append,
        List.take_append_drop, erased]

end Pair

/-! Regions -/

/-- Some columns of one table, or some whole tables. -/
inductive Region where
  | columns (table : String) (names : List String)
  | tables (names : List String)
  deriving DecidableEq, Repr

def editedColumns : MigrationAction → List String
  | .addColumn _ column _ => [column.name]
  | .renameColumn _ old new => [old, new]
  | .deleteColumn _ column => [column]
  | .modifyColumnType _ column _ _ _ _ => [column]
  | .modifyColumnNullable _ column _ _ _ => [column]
  | .modifyColumnDefault _ column _ _ => [column]
  | .modifyColumnComment _ column _ => [column]
  | .remapEnumValues _ column _ => [column]
  | _ => []

def namedTables : MigrationAction → List String
  | .renameTable old new => [old, new]
  | a => a.tableName.toList

def Region.touches : Region → MigrationAction → Bool
  | .columns table names, a => (namedTables a).any (· = table) &&
      (!isEdit a || (editedColumns a).any (· ∈ names))
  | .tables names, a => (namedTables a).any (· ∈ names)

/-- A change of the schema that keeps to a region. -/
def Region.Inside : Region → (SchemaView → SchemaView) → Prop
  | .columns table names, change =>
      ∃ g, Within {k | k ∈ names} g ∧ change = onTableView table g
  | .tables names, change => Within {k | k ∈ names} change

def editView : MigrationAction → TableView → TableView
  | .addColumn _ column _, v => Function.update v column.name (some column.attributes)
  | .renameColumn _ old new, v => renameView old new v
  | .deleteColumn _ column, v => Function.update v column none
  | .modifyColumnType _ column newType _ _ _, v =>
      onColumnView column (fun c => { c with type := newType }) v
  | .modifyColumnNullable _ column nullable _ _, v =>
      onColumnView column (fun c => { c with nullable }) v
  | .modifyColumnDefault _ column newDefault _, v =>
      onColumnView column (fun c => { c with default := newDefault.map defaultText }) v
  | .modifyColumnComment _ column newComment, v =>
      onColumnView column (fun c => { c with comment := newComment }) v
  | .remapEnumValues _ column mapping, v =>
      onColumnView column (fun c => { c with type := remapType mapping c.type }) v
  | _, v => v

theorem on_table_still (table : String) (m : SchemaView) :
    onTableView table (fun v => v) m = m := by
  rw [onTableView, Option.map_id', Function.update_eq_self]

theorem on_table_within {table : String} (g : TableView → TableView) {S : Set String}
    (mem : table ∈ S) : Within S (onTableView table g) :=
  within_update mem fun _ _ same => by rw [same table mem]

theorem on_column_within {column : String} (f : ColumnAttributes → ColumnAttributes)
    {S : Set String} (mem : column ∈ S) : Within S (onColumnView column f) :=
  within_update mem fun _ _ same => by rw [same column mem]

theorem view_step_edit {a : MigrationAction} (edit : isEdit a = true) (m : SchemaView) :
    viewStep m a = onTableView (actionTable a) (editView a) m := by
  cases a <;> first | rfl | exact (on_table_still _ m).symm | simp [isEdit, isLocal] at edit

theorem edit_view_within (a : MigrationAction) : Within {k | k ∈ editedColumns a} (editView a) := by
  cases a with
  | addColumn table column fillWith =>
    exact within_update (by simp [editedColumns]) fun _ _ _ => rfl
  | deleteColumn table column => exact within_update (by simp [editedColumns]) fun _ _ _ => rfl
  | renameColumn table old new =>
    have inner : Within {k | k ∈ [old, new]} fun v : TableView => Function.update v new (v old) :=
      within_update (by simp) fun _ _ same => same old (by simp)
    have outer : Within {k | k ∈ [old, new]} fun v : TableView => Function.update v old none :=
      within_update (by simp) fun _ _ _ => rfl
    exact outer.comp inner
  | modifyColumnType table column newType fillWith strategy timezone =>
    exact on_column_within _ (by simp [editedColumns])
  | modifyColumnNullable table column nullable fillWith deleteNullRows =>
    exact on_column_within _ (by simp [editedColumns])
  | modifyColumnDefault table column newDefault backfill =>
    exact on_column_within _ (by simp [editedColumns])
  | modifyColumnComment table column newComment =>
    exact on_column_within _ (by simp [editedColumns])
  | remapEnumValues table column mapping => exact on_column_within _ (by simp [editedColumns])
  | _ => exact .id _

theorem view_step_within (a : MigrationAction) :
    Within {k | k ∈ namedTables a} fun m => viewStep m a := by
  by_cases edit : isEdit a = true
  · have steps : (fun m => viewStep m a) = onTableView (actionTable a) (editView a) :=
      funext fun m => view_step_edit edit m
    rw [steps]
    refine on_table_within _ ?_
    cases a <;> first
      | simp [namedTables, actionTable, MigrationAction.tableName]; done
      | simp [isEdit, isLocal] at edit
  · cases a with
    | createTable table columns constraints =>
      exact within_update (by simp [namedTables, MigrationAction.tableName]) fun _ _ _ => rfl
    | deleteTable table =>
      exact within_update (by simp [namedTables, MigrationAction.tableName]) fun _ _ _ => rfl
    | renameTable old new =>
      have inner : Within {k | k ∈ [old, new]} fun m : SchemaView =>
          Function.update m new (m old) := within_update (by simp) fun _ _ same => same old (by simp)
      have outer : Within {k | k ∈ [old, new]} fun m : SchemaView => Function.update m old none :=
        within_update (by simp) fun _ _ _ => rfl
      exact outer.comp inner
    | rawSql sql => exact .id _
    | dataMigration sql description => exact .id _
    | _ => exact absurd rfl edit

/-- A change inside a region commutes with every action that does not touch it. -/
theorem inside_commutes {r : Region} {change : SchemaView → SchemaView} (inside : r.Inside change)
    {a : MigrationAction} (away : r.touches a = false) (m : SchemaView) :
    viewStep (change m) a = change (viewStep m a) := by
  cases r with
  | columns table names =>
    obtain ⟨g, within, rfl⟩ := inside
    by_cases own : table ∈ namedTables a
    · obtain ⟨edit, apart⟩ : isEdit a = true ∧ ∀ k ∈ editedColumns a, k ∉ names := by
        simpa [Region.touches, own] using away
      have here : actionTable a = table := by
        cases a <;> first
          | exact (List.mem_singleton.mp own).symm
          | simp [isEdit, isLocal] at edit
      have disjoint : Disjoint {k | k ∈ editedColumns a} {k | k ∈ names} := by
        rw [Set.disjoint_left]
        exact apart
      rw [view_step_edit edit, view_step_edit edit, here]
      simp only [onTableView, Function.update_self, Function.update_idem, Option.map_map]
      congr 2
      exact funext fun v => (edit_view_within a).commute within disjoint v
    · exact (view_step_within a).commute (on_table_within g (Set.mem_singleton table))
        (Set.disjoint_singleton_right.mpr own) m
  | tables names =>
    refine (view_step_within a).commute inside ?_ m
    rw [Set.disjoint_left]
    simpa [Region.touches] using away

/-- All that an action reads or writes lies in the region. -/
def Region.Owns : Region → MigrationAction → Prop
  | .columns table names, a => isEdit a = true ∧ actionTable a = table ∧
      editedColumns a ≠ [] ∧ ∀ k ∈ editedColumns a, k ∈ names
  | .tables names, a => namedTables a ≠ [] ∧ ∀ k ∈ namedTables a, k ∈ names

def Region.Apart : Region → Region → Prop
  | .columns table names, .columns table' names' => table = table' → ∀ k ∈ names, k ∉ names'
  | .columns table _, .tables names => table ∉ names
  | .tables names, .columns table _ => table ∉ names
  | .tables names, .tables names' => ∀ k ∈ names, k ∉ names'

theorem edit_named {a : MigrationAction} (edit : isEdit a = true) :
    namedTables a = [actionTable a] := by
  cases a <;> first | rfl | simp [isEdit, isLocal] at edit

section Owns
variable {r r' : Region} {a : MigrationAction} (owns : r.Owns a)
include owns

theorem owned_touches : r.touches a = true := by
  cases r with
  | columns table names =>
    obtain ⟨edit, named, some_column, inside⟩ := owns
    obtain ⟨k, mem⟩ := List.exists_mem_of_ne_nil _ some_column
    simp only [Region.touches, edit_named edit, edit, named]
    simpa using ⟨k, mem, inside k mem⟩
  | tables names =>
    obtain ⟨some_table, inside⟩ := owns
    obtain ⟨k, mem⟩ := List.exists_mem_of_ne_nil _ some_table
    simpa [Region.touches] using ⟨k, mem, inside k mem⟩

theorem owned_inside : r.Inside fun m => viewStep m a := by
  cases r with
  | columns table names =>
    obtain ⟨edit, rfl, _, inside⟩ := owns
    exact ⟨editView a, (edit_view_within a).mono inside, funext fun m => view_step_edit edit m⟩
  | tables names => exact (view_step_within a).mono owns.2

theorem owned_apart (apart : r.Apart r') : r'.touches a = false := by
  cases r with
  | columns table names =>
    obtain ⟨edit, rfl, _, inside⟩ := owns
    cases r' with
    | columns table' names' =>
      by_cases same : actionTable a = table'
      · simpa [Region.touches, edit_named edit, edit, same] using
          fun k mem => apart same k (inside k mem)
      · simp [Region.touches, edit_named edit, same]
    | tables names' =>
      have away : actionTable a ∉ names' := apart
      simpa [Region.touches, edit_named edit] using away
  | tables names =>
    obtain ⟨_, inside⟩ := owns
    cases r' with
    | columns table' names' =>
      have away : table' ∉ namedTables a := fun mem => apart (inside table' mem)
      simp [Region.touches, away]
    | tables names' =>
      simpa [Region.touches] using fun k mem => apart k (inside k mem)

end Owns

theorem apart_comm {r r' : Region} (apart : r.Apart r') : r'.Apart r := by
  cases r <;> cases r'
  · exact fun same k mem mem' => apart same.symm k mem' mem
  · exact apart
  · exact apart
  · exact fun k mem mem' => apart k mem' mem

theorem region_run {r : Region} {actions : List MigrationAction}
    (owned : ∀ a ∈ actions, r.touches a = true → r.Owns a) (m : SchemaView) :
    viewRun actions m =
      viewRun (actions.filter (! r.touches ·)) (viewRun (actions.filter r.touches) m) :=
  fold_separate (fun a mem touched _ _ away s =>
    inside_commutes (owned_inside (owned a mem touched)) away s) m

theorem carried_run {r : Region} {carry : SchemaView → SchemaView} (inside : r.Inside carry)
    {actions : List MigrationAction} (away : ∀ a ∈ actions, r.touches a = false) (m : SchemaView) :
    viewRun actions (carry m) = carry (viewRun actions m) :=
  fold_through (fun a mem s => inside_commutes inside (away a mem) s) m

/-! Answers -/

/-- An answer that makes a rename of a drop, with what the rename carries over. -/
structure Renaming where
  region : Region
  isDrop : MigrationAction → Bool
  isAddition : MigrationAction → Bool
  dropMissing : String
  additionMissing : String
  replacement : MigrationAction → List MigrationAction
  carry : SchemaView → SchemaView

def Renaming.apply (r : Renaming) (actions : List MigrationAction) :
    Except DropResolutionError (List MigrationAction) :=
  rewritePair r.isDrop r.isAddition r.dropMissing r.additionMissing r.replacement actions

/-- The rename has the effect of the pair, but for what it carries over. -/
structure Renaming.Replaces (r : Renaming) (m : SchemaView) (drop addition : MigrationAction) :
    Prop where
  pair : DropPair r.region.touches r.isDrop r.isAddition drop addition
  drop_owned : r.region.Owns drop
  addition_owned : r.region.Owns addition
  owned : ∀ b ∈ r.replacement addition, r.region.Owns b
  carry_inside : r.region.Inside r.carry
  commutes : viewRun [addition, drop] m = viewRun [drop, addition] m
  carries : viewRun (r.replacement addition) m = r.carry (viewRun [drop, addition] m)

def Renaming.Open (r : Renaming) (m : SchemaView) (actions : List MigrationAction) : Prop :=
  ∃ drop addition, r.Replaces m drop addition ∧
    PairAlone r.region.touches drop addition actions

def Renaming.Done (r : Renaming) (before actions : List MigrationAction) : Prop :=
  ∃ addition ∈ before.filter r.region.touches, r.isAddition addition = true ∧
    (∀ b ∈ r.replacement addition, r.region.Owns b) ∧
    actions.filter r.region.touches = r.replacement addition

theorem Renaming.Open.step {r : Renaming} {m : SchemaView} {actions : List MigrationAction}
    (ready : r.Open m actions) : ∃ rewritten, r.apply actions = .ok rewritten ∧
      viewRun rewritten m = r.carry (viewRun actions m) ∧ r.Done actions rewritten ∧
      (∀ other : Region, r.region.Apart other →
        rewritten.filter other.touches = actions.filter other.touches) ∧
      ∀ b ∈ rewritten, b ∈ actions ∨ ∃ addition, b ∈ r.replacement addition := by
  obtain ⟨drop, addition, replaces, alone⟩ := ready
  obtain ⟨rewritten, applied, inside, outside, sources⟩ := rewrite_parts replaces.pair alone
    (fun b mem => owned_touches (replaces.owned b mem)) r.dropMissing r.additionMissing
  have listed : addition ∈ actions.filter r.region.touches := by
    rcases alone with pair | pair <;> simp [pair]
  refine ⟨rewritten, applied, ?_,
    ⟨addition, listed, replaces.pair.adds, replaces.owned, inside⟩, ?_,
    fun b mem => (sources b mem).imp_right fun new => ⟨addition, new⟩⟩
  · have touches_drop := owned_touches replaces.drop_owned
    have touches_addition := owned_touches replaces.addition_owned
    have same_rest := outside (! r.region.touches ·) (by simp [touches_drop])
      (by simp [touches_addition]) fun b mem => by simp [owned_touches (replaces.owned b mem)]
    have pair_run : viewRun (actions.filter r.region.touches) m = viewRun [drop, addition] m := by
      rcases alone with pair | pair
      · rw [pair]
      · rw [pair, replaces.commutes]
    have pair_owned : ∀ a ∈ actions, r.region.touches a = true → r.region.Owns a := by
      intro a mem touched
      have listed := List.mem_filter.mpr ⟨mem, touched⟩
      rcases alone with pair | pair
      all_goals
        rw [pair] at listed
        simp only [List.mem_cons, List.not_mem_nil, or_false] at listed
        rcases listed with rfl | rfl
        · first | exact replaces.drop_owned | exact replaces.addition_owned
        · first | exact replaces.drop_owned | exact replaces.addition_owned
    have new_owned : ∀ a ∈ rewritten, r.region.touches a = true → r.region.Owns a := by
      intro a mem touched
      exact replaces.owned a (inside ▸ List.mem_filter.mpr ⟨mem, touched⟩)
    rw [region_run new_owned, inside, same_rest, replaces.carries, ← pair_run,
      carried_run replaces.carry_inside (fun a mem => by simpa using (List.mem_filter.mp mem).2),
      ← region_run pair_owned]
  · intro other apart
    exact outside other.touches (owned_apart replaces.drop_owned apart)
      (owned_apart replaces.addition_owned apart)
      fun b mem => owned_apart (replaces.owned b mem) apart

/-- Answers about regions apart go through one after the other. -/
theorem answers_run {m : SchemaView} {answers : List Renaming} {actions : List MigrationAction}
    (ready : ∀ r ∈ answers, r.Open m actions)
    (apart : answers.Pairwise fun r r' => r.region.Apart r'.region) :
    ∃ settled, answers.foldlM (fun actions r => r.apply actions) actions = .ok settled ∧
      viewRun settled m = answers.foldl (fun v r => r.carry v) (viewRun actions m) ∧
      (∀ r ∈ answers, r.Done actions settled) ∧
      (∀ other : Region, (∀ r ∈ answers, r.region.Apart other) →
        settled.filter other.touches = actions.filter other.touches) ∧
      ∀ b ∈ settled, b ∈ actions ∨ ∃ r ∈ answers, ∃ addition, b ∈ r.replacement addition := by
  induction answers generalizing actions with
  | nil => exact ⟨actions, rfl, rfl, by simp, fun _ _ => rfl, fun _ mem => .inl mem⟩
  | cons r rest ih =>
    obtain ⟨first, later⟩ := List.forall_mem_cons.mp ready
    obtain ⟨from_rest, among⟩ := List.pairwise_cons.mp apart
    obtain ⟨next, applied, view, finished, kept, sources⟩ := first.step
    have still_open : ∀ r' ∈ rest, r'.Open m next := by
      intro r' mem
      obtain ⟨drop, addition, replaces, alone⟩ := later r' mem
      refine ⟨drop, addition, replaces, ?_⟩
      rwa [PairAlone, kept r'.region (from_rest r' mem)]
    obtain ⟨settled, ran, end_view, ended, end_kept, end_sources⟩ := ih still_open among
    refine ⟨settled, ?_, ?_, ?_, ?_, ?_⟩
    · rw [List.foldlM_cons, applied]
      exact ran
    · rw [end_view, view]
      rfl
    · refine List.forall_mem_cons.mpr ⟨?_, fun r' mem => ?_⟩
      · obtain ⟨addition, listed, adds, owned, here⟩ := finished
        refine ⟨addition, listed, adds, owned, ?_⟩
        rw [end_kept r.region fun r' mem => apart_comm (from_rest r' mem), here]
      · obtain ⟨addition, listed, done⟩ := ended r' mem
        exact ⟨addition, kept r'.region (from_rest r' mem) ▸ listed, done⟩
    · intro other others
      obtain ⟨here, there⟩ := List.forall_mem_cons.mp others
      rw [end_kept other there, kept other here]
    · intro b mem
      rcases end_sources b mem with earlier | ⟨r', listed, new⟩
      · rcases sources b earlier with old | new
        · exact .inl old
        · exact .inr ⟨r, List.mem_cons_self, new⟩
      · exact .inr ⟨r', List.mem_cons_of_mem r listed, new⟩

/-! What a rename carries over -/

/-- The column keeps its comment, and its default if that is equal to the new one. -/
def carried (old new : ColumnDef) (c : ColumnAttributes) : ColumnAttributes :=
  { c with
    default := if sameDefault old.default new.default then old.default.map (·.toSql) else c.default
    comment := old.comment }

def carriedTable (old new : List ColumnDef) (v : TableView) : TableView := fun column =>
  match columnGet old column, columnGet new column with
  | some o, some n => (v column).map (carried o n)
  | _, _ => v column

/-- What the changes after a rename make of a column. -/
def revised (old new : ColumnDef) (c : ColumnAttributes) : ColumnAttributes where
  type := if old.type = new.type then c.type else new.type
  nullable := if old.nullable = new.nullable then c.nullable else new.nullable
  default := if sameDefault old.default new.default then c.default
    else new.default.map (·.toSql)
  comment := c.comment

theorem revised_carried (old new : ColumnDef) :
    revised old new old.attributes = carried old new new.attributes := by
  simp only [revised, carried, ColumnDef.attributes, ColumnAttributes.mk.injEq, and_true]
  refine ⟨?_, ?_⟩
  · split
    · assumption
    · rfl
  · split
    · assumption
    · rfl

theorem default_texts (d : Option DefaultValue) :
    (d.map (·.toSql)).map defaultText = d.map (·.toSql) := by
  cases d with
  | none => rfl
  | some d => exact congrArg some (to_sql_string d)

/-! Edits of one table -/

def tableRun (actions : List MigrationAction) (v : TableView) : TableView :=
  actions.foldl (fun v a => editView a v) v

theorem table_run_append (first second : List MigrationAction) (v : TableView) :
    tableRun (first ++ second) v = tableRun second (tableRun first v) := List.foldl_append

@[simp] theorem table_run_cons (a : MigrationAction) (rest : List MigrationAction) (v : TableView) :
    tableRun (a :: rest) v = tableRun rest (editView a v) := rfl

theorem on_table_twice (table : String) (f g : TableView → TableView) (m : SchemaView) :
    onTableView table g (onTableView table f m) = onTableView table (fun v => g (f v)) m := by
  simp only [onTableView, Function.update_self, Function.update_idem, Option.map_map]
  rfl

theorem table_run {table : String} {actions : List MigrationAction}
    (edits : ∀ a ∈ actions, isEdit a = true ∧ actionTable a = table) (m : SchemaView) :
    viewRun actions m = onTableView table (tableRun actions) m := by
  induction actions generalizing m with
  | nil => exact (on_table_still table m).symm
  | cons a rest ih =>
    obtain ⟨⟨edit, named⟩, later⟩ := List.forall_mem_cons.mp edits
    rw [view_run_cons, ih later, view_step_edit edit, named, on_table_twice]
    rfl

theorem property_change_cases {table column : String} {old new : ColumnDef} {a : MigrationAction}
    (mem : a ∈ propertyChanges table column old new) :
    a = .modifyColumnType table column new.type none none none ∨
      a = .modifyColumnNullable table column new.nullable none none ∨
      a = .modifyColumnDefault table column (new.default.map (·.toSql)) none := by
  simp only [propertyChanges, List.mem_append] at mem
  rcases mem with (mem | mem) | mem <;> split at mem <;> simp_all

theorem property_changes_edit (table column : String) (old new : ColumnDef) :
    ∀ a ∈ propertyChanges table column old new,
      isEdit a = true ∧ actionTable a = table ∧ editedColumns a = [column] := by
  intro a mem
  rcases property_change_cases mem with rfl | rfl | rfl <;> exact ⟨rfl, rfl, rfl⟩

theorem on_column_twice (column : String) (f g : ColumnAttributes → ColumnAttributes)
    (v : TableView) :
    onColumnView column g (onColumnView column f v) = onColumnView column (fun c => g (f c)) v := by
  simp only [onColumnView, Function.update_self, Function.update_idem, Option.map_map]
  rfl

theorem on_column_still (column : String) (v : TableView) :
    onColumnView column (fun c => c) v = v := by
  rw [onColumnView, Option.map_id', Function.update_eq_self]

theorem property_changes_run (table column : String) (old new : ColumnDef) (v : TableView) :
    tableRun (propertyChanges table column old new) v =
      onColumnView column (revised old new) v := by
  have type : ∀ v, tableRun (if old.type ≠ new.type then
        [.modifyColumnType table column new.type none none none] else []) v =
      onColumnView column (fun c =>
        { c with type := if old.type = new.type then c.type else new.type }) v := by
    intro v
    by_cases same : old.type = new.type
    · simp [tableRun, same, on_column_still]
    · simp [tableRun, same, editView]
  have nullable : ∀ v, tableRun (if old.nullable ≠ new.nullable then
        [.modifyColumnNullable table column new.nullable none none] else []) v =
      onColumnView column (fun c => { c with
        nullable := if old.nullable = new.nullable then c.nullable else new.nullable }) v := by
    intro v
    by_cases same : old.nullable = new.nullable
    · simp [tableRun, same, on_column_still]
    · simp [tableRun, same, editView]
  have value : ∀ v, tableRun (if sameDefault old.default new.default then []
        else [.modifyColumnDefault table column (new.default.map (·.toSql)) none]) v =
      onColumnView column (fun c => { c with
        default := if sameDefault old.default new.default then c.default
          else new.default.map (·.toSql) }) v := by
    intro v
    cases same : sameDefault old.default new.default
    · have text := default_texts new.default
      simp only [Option.map_map] at text
      simp [tableRun, editView, text]
    · simp [tableRun, on_column_still]
  rw [propertyChanges, table_run_append, table_run_append, type, nullable, value,
    on_column_twice, on_column_twice]
  rfl

/-- Edits that go column by column, read at one column. -/
theorem fold_by_column {columns : List ColumnDef} (nodup : (columns.map (·.name)).Nodup)
    {edits : ColumnDef → List MigrationAction}
    (change : ColumnDef → Option ColumnAttributes → Option ColumnAttributes)
    (keeps_to : ∀ c ∈ columns, ∀ v,
      tableRun (edits c) v = Function.update v c.name (change c (v c.name)))
    (v : TableView) (column : String) :
    tableRun (columns.flatMap edits) v column =
      ((columnGet columns column).map fun c => change c (v column)).getD (v column) := by
  induction columns generalizing v with
  | nil => rfl
  | cons c rest ih =>
    obtain ⟨unique, tail⟩ := List.nodup_cons.mp nodup
    obtain ⟨here, later⟩ := List.forall_mem_cons.mp keeps_to
    rw [List.flatMap_cons, table_run_append, here, ih tail later]
    by_cases own : c.name = column
    · subst own
      have absent : columnGet rest c.name = none := KeyedView.get_eq_none_iff.mpr fun d mem same =>
        unique (List.mem_map.mpr ⟨d, mem, same⟩)
      have found : columnGet (c :: rest) c.name = some c :=
        KeyedView.get_of_nodup nodup List.mem_cons_self
      simp [absent, found]
    · have same : columnGet (c :: rest) column = columnGet rest column := by
        simp [columnGet, KeyedView.get, List.find?_append, own]
      have other : ¬ column = c.name := fun same => own same.symm
      simp [same, other]

/-! Renamed columns -/

def columnRenaming (baseline : List TableDef) (table old new : String)
    (carry : SchemaView → SchemaView) : Renaming where
  region := .columns table [old, new]
  isDrop := dropsColumn table old
  isAddition := addsColumn table new
  dropMissing := s!"DeleteColumn {table}.{old}"
  additionMissing := s!"AddColumn {table}.{new}"
  replacement := columnRename baseline table old new
  carry := carry

theorem column_tests (table old : String) (added : ColumnDef) : DropPair
    (Region.columns table [old, added.name]).touches (dropsColumn table old)
    (addsColumn table added.name) (.deleteColumn table old)
    (MigrationAction.addColumn table added none) where
  drops := by simp [dropsColumn]
  adds := by simp [addsColumn]
  drop_inside := by simp [Region.touches, namedTables, MigrationAction.tableName, editedColumns]
  addition_inside := by
    simp [Region.touches, namedTables, MigrationAction.tableName, editedColumns]
  not_drop := rfl
  not_addition := rfl
  drop_touches a away := by
    cases a with
    | deleteColumn t c =>
      have apart : t = table → c ≠ old ∧ c ≠ added.name := by
        simpa [Region.touches, namedTables, MigrationAction.tableName, isEdit, isLocal,
          editedColumns] using away
      by_cases same : t = table
      · simp [dropsColumn, same, (apart same).1]
      · simp [dropsColumn, same]
    | _ => rfl
  addition_touches a away := by
    cases a with
    | addColumn t c fillWith =>
      have apart : t = table → c.name ≠ old ∧ c.name ≠ added.name := by
        simpa [Region.touches, namedTables, MigrationAction.tableName, isEdit, isLocal,
          editedColumns] using away
      by_cases same : t = table
      · simp [addsColumn, same, (apart same).2]
      · simp [addsColumn, same]
    | _ => rfl

theorem column_replaces {baseline : List TableDef} {table old : String} {was added : ColumnDef}
    (known : findColumnInSchema baseline table old = some was) (apart : old ≠ added.name) :
    (columnRenaming baseline table old added.name
      (onTableView table (onColumnView added.name (carried was added)))).Replaces
        (schemaView baseline) (.deleteColumn table old)
        (MigrationAction.addColumn table added none) := by
  have replaced : columnRename baseline table old added.name
      (MigrationAction.addColumn table added none) =
        .renameColumn table old added.name :: propertyChanges table added.name was added := by
    simp [columnRename, known]
  have other : ¬ added.name = old := fun same => apart same.symm
  exact {
    pair := column_tests table old added
    drop_owned := ⟨rfl, rfl, by simp [editedColumns], by simp [editedColumns]⟩
    addition_owned := ⟨rfl, rfl, by simp [editedColumns], by simp [editedColumns]⟩
    owned := by
      show ∀ b ∈ columnRename baseline table old added.name
        (MigrationAction.addColumn table added none), _
      rw [replaced]
      intro b mem
      rcases List.mem_cons.mp mem with rfl | change
      · exact ⟨rfl, rfl, by simp [editedColumns], by simp [editedColumns]⟩
      · obtain ⟨edit, named, columns⟩ := property_changes_edit _ _ _ _ b change
        exact ⟨edit, named, by simp [columns], by simp [columns]⟩
    carry_inside := ⟨_, on_column_within _ (by simp), rfl⟩
    commutes := by
      simp only [view_run_cons, view_run_nil, viewStep, on_table_twice]
      congr 1
      funext v
      exact (Function.update_comm apart none _ v).symm
    carries := by
      have edits : ∀ a ∈ propertyChanges table added.name was added,
          isEdit a = true ∧ actionTable a = table := by
        intro a mem
        obtain ⟨edit, named, _⟩ := property_changes_edit _ _ _ _ a mem
        exact ⟨edit, named⟩
      show viewRun (columnRename baseline table old added.name
          (MigrationAction.addColumn table added none)) (schemaView baseline) =
        onTableView table (onColumnView added.name (carried was added)) _
      rw [replaced, view_run_cons, table_run edits]
      simp only [view_run_cons, view_run_nil, viewStep, on_table_twice]
      obtain ⟨t, found, column⟩ := Option.bind_eq_some_iff.mp known
      have seen : schemaView baseline table = some (columnsView t.columns) :=
        congrArg (Option.map fun t : TableDef => columnsView t.columns) found
      have own : columnsView t.columns old = some was.attributes :=
        congrArg (Option.map ColumnDef.attributes) column
      simp only [onTableView, seen, Option.map_some, property_changes_run]
      congr 2
      funext k
      have kept := revised_carried was added
      by_cases is_new : k = added.name
      · simp [onColumnView, renameView, is_new, other, own, kept]
      · by_cases is_old : k = old
        · simp [onColumnView, renameView, is_old, apart]
        · simp [onColumnView, renameView, is_new, is_old] }

/-! Renamed tables -/

def tableRenaming (baseline : List TableDef) (old new : String)
    (carry : SchemaView → SchemaView) : Renaming where
  region := .tables [old, new]
  isDrop := deletesTable old
  isAddition := createsTable new
  dropMissing := s!"DeleteTable {old}"
  additionMissing := s!"CreateTable {new}"
  replacement := tableRename baseline old new
  carry := carry

theorem columns_view_get {columns : List ColumnDef} (nodup : (columns.map (·.name)).Nodup)
    (column : String) :
    columnsView columns column = (columnGet columns column).map ColumnDef.attributes := by
  cases found : columnGet columns column with
  | none =>
    rw [columns_view_none.mpr (KeyedView.get_eq_none_iff.mp found)]
    rfl
  | some c =>
    obtain ⟨mem, rfl⟩ := KeyedView.get_some found
    rw [columnsView, find_column nodup found]

section Tables
variable {table : String} {old new : List ColumnDef}

theorem diff_table_columns_edit : ∀ a ∈ diffTableColumns table old new,
    isEdit a = true ∧ actionTable a = table := by
  intro a mem
  simp only [diffTableColumns, List.mem_append, List.mem_map, List.mem_flatMap] at mem
  rcases mem with (⟨c, _, rfl⟩ | ⟨c, _, rfl⟩) | ⟨c, _, change⟩
  · exact ⟨rfl, rfl⟩
  · exact ⟨rfl, rfl⟩
  · unfold keptChanges at change
    split at change
    · obtain ⟨edit, named, _⟩ := property_changes_edit _ _ _ _ a change
      exact ⟨edit, named⟩
    · cases change

theorem diff_table_constraints_edit {was wanted : List TableConstraint} :
    ∀ a ∈ diffTableConstraints table was wanted, isEdit a = true ∧ actionTable a = table := by
  intro a mem
  simp only [diffTableConstraints, List.mem_append, List.mem_map] at mem
  rcases mem with ⟨c, _, rfl⟩ | ⟨c, _, rfl⟩ <;> exact ⟨rfl, rfl⟩

theorem constraints_run (was wanted : List TableConstraint) (v : TableView) :
    tableRun (diffTableConstraints table was wanted) v = v := by
  have still : ∀ actions : List MigrationAction, (∀ a ∈ actions, editView a v = v) →
      tableRun actions v = v := by
    intro actions unmoved
    induction actions with
    | nil => rfl
    | cons a rest ih =>
      obtain ⟨here, later⟩ := List.forall_mem_cons.mp unmoved
      rw [table_run_cons, here, ih later]
  refine still _ fun a mem => ?_
  simp only [diffTableConstraints, List.mem_append, List.mem_map] at mem
  rcases mem with ⟨c, _, rfl⟩ | ⟨c, _, rfl⟩ <;> rfl

theorem get_filtered {columns : List ColumnDef} (nodup : (columns.map (·.name)).Nodup)
    (p : ColumnDef → Bool) (column : String) :
    columnGet (columns.filter p) column = (columnGet columns column).filter p := by
  have filtered : ((columns.filter p).map (·.name)).Nodup :=
    (List.filter_sublist.map _).nodup nodup
  cases found : columnGet columns column with
  | none =>
    refine KeyedView.get_eq_none_iff.mpr fun c mem => ?_
    exact KeyedView.get_eq_none_iff.mp found c (List.mem_of_mem_filter mem)
  | some c =>
    obtain ⟨mem, rfl⟩ := KeyedView.get_some found
    cases kept : p c with
    | true =>
      rw [Option.filter_some_pos kept]
      exact KeyedView.get_of_nodup filtered (List.mem_filter.mpr ⟨mem, kept⟩)
    | false =>
      rw [Option.filter_some_neg (by simp [kept])]
      refine KeyedView.get_eq_none_iff.mpr fun d there same => ?_
      obtain ⟨listed, passes⟩ := List.mem_filter.mp there
      obtain rfl := List.inj_on_of_nodup_map nodup listed mem same
      rw [kept] at passes
      cases passes

theorem table_changes_run (old_nodup : (old.map (·.name)).Nodup)
    (new_nodup : (new.map (·.name)).Nodup) :
    tableRun (diffTableColumns table old new) (columnsView old) =
      carriedTable old new (columnsView new) := by
  have drops : ∀ v k, tableRun
      ((old.filter fun c => (columnGet new c.name).isNone).map (.deleteColumn table ·.name)) v k =
        if (columnGet old k).isSome ∧ columnGet new k = none then none else v k := by
    intro v k
    rw [List.map_eq_flatMap, fold_by_column
      ((List.filter_sublist.map _).nodup old_nodup) (fun _ _ => none) (fun c _ v => rfl),
      get_filtered old_nodup]
    cases found : columnGet old k with
    | none => simp
    | some c =>
      obtain ⟨_, rfl⟩ := KeyedView.get_some found
      cases there : columnGet new c.name <;> simp [Option.filter_some, there]
  have additions : ∀ v k, tableRun
      ((new.filter fun c => (columnGet old c.name).isNone).map (.addColumn table · none)) v k =
        if columnGet old k = none then
          ((columnGet new k).map fun c => some c.attributes).getD (v k) else v k := by
    intro v k
    rw [List.map_eq_flatMap, fold_by_column
      ((List.filter_sublist.map _).nodup new_nodup) (fun c _ => some c.attributes) (fun c _ v => rfl),
      get_filtered new_nodup]
    cases found : columnGet new k with
    | none => simp
    | some c =>
      obtain ⟨_, rfl⟩ := KeyedView.get_some found
      cases here : columnGet old c.name <;> simp [Option.filter_some, here]
  have changes : ∀ v k, tableRun (new.flatMap (keptChanges table old)) v k =
      ((columnGet new k).map fun n =>
        ((columnGet old k).map fun o => (v k).map (revised o n)).getD (v k)).getD (v k) := by
    intro v k
    rw [fold_by_column new_nodup (fun c d =>
      ((columnGet old c.name).map fun o => d.map (revised o c)).getD d)]
    · cases found : columnGet new k with
      | none => rfl
      | some c =>
        obtain ⟨_, rfl⟩ := KeyedView.get_some found
        rfl
    · intro c _ v
      unfold keptChanges
      cases here : columnGet old c.name with
      | none => exact (Function.update_eq_self c.name v).symm
      | some o => exact property_changes_run table c.name o c v
  funext k
  rw [diffTableColumns, table_run_append, table_run_append, changes, additions, drops, carriedTable,
    columns_view_get old_nodup, columns_view_get new_nodup]
  cases here : columnGet old k with
  | none => cases there : columnGet new k <;> simp
  | some o =>
    cases there : columnGet new k with
    | none => simp
    | some n => simp [revised_carried]

end Tables

theorem table_tests (old new : String) (columns : List ColumnDef)
    (constraints : List TableConstraint) : DropPair (Region.tables [old, new]).touches
      (deletesTable old) (createsTable new) (.deleteTable old)
      (.createTable new columns constraints) where
  drops := by simp [deletesTable]
  adds := by simp [createsTable]
  drop_inside := by simp [Region.touches, namedTables, MigrationAction.tableName]
  addition_inside := by simp [Region.touches, namedTables, MigrationAction.tableName]
  not_drop := rfl
  not_addition := rfl
  drop_touches a away := by
    cases a with
    | deleteTable t =>
      have apart : t ≠ old ∧ t ≠ new := by
        simpa [Region.touches, namedTables, MigrationAction.tableName] using away
      simp [deletesTable, apart.1]
    | _ => rfl
  addition_touches a away := by
    cases a with
    | createTable t cols cons =>
      have apart : t ≠ old ∧ t ≠ new := by
        simpa [Region.touches, namedTables, MigrationAction.tableName] using away
      simp [createsTable, apart.2]
    | _ => rfl

theorem table_replaces {baseline : List TableDef} {old new : String} {was : TableDef}
    {columns : List ColumnDef} {constraints : List TableConstraint}
    (known : tableAt baseline old = some was) (apart : old ≠ new)
    (old_nodup : was.columnNames.Nodup) (new_nodup : (columns.map (·.name)).Nodup) :
    (tableRenaming baseline old new (onTableView new (carriedTable was.columns columns))).Replaces
      (schemaView baseline) (.deleteTable old) (.createTable new columns constraints) := by
  have replaced : tableRename baseline old new (.createTable new columns constraints) =
      .renameTable old new :: (diffTableColumns new was.columns columns ++
        diffTableConstraints new was.constraints constraints) := by
    have found : baseline.find? (·.name = old) = some was := known
    simp [tableRename, found]
  have edits : ∀ a ∈ diffTableColumns new was.columns columns ++
      diffTableConstraints new was.constraints constraints,
      isEdit a = true ∧ actionTable a = new := by
    intro a mem
    rcases List.mem_append.mp mem with change | change
    · exact diff_table_columns_edit a change
    · exact diff_table_constraints_edit a change
  exact {
    pair := table_tests old new columns constraints
    drop_owned := ⟨by simp [namedTables, MigrationAction.tableName],
      by simp [namedTables, MigrationAction.tableName]⟩
    addition_owned := ⟨by simp [namedTables, MigrationAction.tableName],
      by simp [namedTables, MigrationAction.tableName]⟩
    owned := by
      show ∀ b ∈ tableRename baseline old new (.createTable new columns constraints), _
      rw [replaced]
      intro b mem
      rcases List.mem_cons.mp mem with rfl | change
      · exact ⟨by simp [namedTables], by simp [namedTables]⟩
      · obtain ⟨edit, named⟩ := edits b change
        refine ⟨?_, ?_⟩ <;> simp [edit_named edit, named]
    carry_inside := on_table_within _ (by simp)
    commutes := by
      simp only [view_run_cons, view_run_nil, viewStep]
      exact (Function.update_comm apart _ _ _).symm
    carries := by
      show viewRun (tableRename baseline old new (.createTable new columns constraints))
          (schemaView baseline) = onTableView new (carriedTable was.columns columns) _
      have seen : schemaView baseline old = some (columnsView was.columns) :=
        congrArg (Option.map fun t : TableDef => columnsView t.columns) known
      have run : tableRun (diffTableColumns new was.columns columns ++
          diffTableConstraints new was.constraints constraints) (columnsView was.columns) =
            carriedTable was.columns columns (columnsView columns) := by
        rw [table_run_append, constraints_run, table_changes_run old_nodup new_nodup]
      have other : ¬ new = old := fun same => apart same.symm
      rw [replaced, view_run_cons, table_run edits]
      simp only [view_run_cons, view_run_nil, viewStep, onTableView, seen, Function.update_self,
        Option.map_some, Function.update_idem]
      funext k
      by_cases is_new : k = new
      · simp [is_new, other, run]
      · simp [is_new, Function.update_apply] }

end Vespertide
