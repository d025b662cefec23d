import Mathlib
import Vespertide.SeaOrmConsistent

/-!
Where a chain of foreign keys ends. References are followed while the referenced
column starts a foreign key of its own; the walk stops before it would come back to
a reference it passed. The stop is decided by the first referenced column alone.
-/
namespace Vespertide
open Relation

abbrev Reference := String × List String

def keyReference (key : String × String) : Reference := (key.1, [key.2])

section
variable (schema : List TableDef)

/-- From a reference to one column, by the first foreign key of that column alone. -/
inductive FollowsKey : Reference → Reference → Prop
  | key {table column : String} {target : TableDef} {next : TableForeignKey}
      (got : KeyedView.get TableDef.name schema table = some target)
      (found : (foreignKeys target).find? (·.columns = [column]) = some next) :
      FollowsKey (table, [column]) (next.refTable, next.refColumns)

/-- The path from the start to the end passes no reference twice, and what follows
    the end, if anything does, is on the path: following it closes a cycle. -/
structure ChainEnd (start last : Reference) : Prop where
  path : ∃ path : List Reference, path.head? = some start ∧ path.getLast? = some last ∧
    path.IsChain (FollowsKey schema) ∧ path.Nodup ∧
      ∀ next, FollowsKey schema last next → next ∈ path

/-- Every foreign key met on the way refers to a column, and one that refers to several
    does not start with a column already on the way. -/
def ChainNamed (start : Reference) : Prop :=
  ∀ here next, ReflTransGen (FollowsKey schema) start here → FollowsKey schema here next →
    next.2 ≠ [] ∧ ∀ first second rest, next.2 = first :: second :: rest →
      ¬ ReflTransGen (FollowsKey schema) start (next.1, [first])

inductive Walk (start : Reference) : List (String × String) → Reference → Prop
  | here : Walk start [] start
  | on {visited : List (String × String)} {table column nextTable nextColumn : String}
      {rest : List String} (walked : Walk start visited (table, [column]))
      (step : FollowsKey schema (table, [column]) (nextTable, nextColumn :: rest))
      (unseen : (nextTable, nextColumn) ∉ (table, column) :: visited) :
      Walk start ((table, column) :: visited) (nextTable, nextColumn :: rest)

/-- How a walk ends: at an end of the chain, at a foreign key that names no column, or
    at one that names several and whose first one was visited. -/
inductive WalkEnds (visited : List (String × String)) (last : Reference) :
    Option Reference → Prop
  | closed (closing : ∀ next, FollowsKey schema last next → ∃ key ∈ (last.1, last.2.headD "") ::
      visited, next = keyReference key) : WalkEnds visited last (some last)
  | unnamed {next : Reference} (step : FollowsKey schema last next) (none_named : next.2 = []) :
      WalkEnds visited last none
  | cutShort {next : Reference} {first second : String} {rest : List String}
      (step : FollowsKey schema last next) (several : next.2 = first :: second :: rest)
      (seen : (next.1, first) ∈ (last.1, last.2.headD "") :: visited) :
      WalkEnds visited last (some last)

end

section Chains
variable {schema : List TableDef} {start : Reference}

theorem follows_unique {here first second : Reference} (one : FollowsKey schema here first)
    (other : FollowsKey schema here second) : first = second := by
  cases one with
  | key got found =>
    cases other with
    | key again other =>
      obtain rfl := Option.some.inj (got.symm.trans again)
      obtain rfl := Option.some.inj (found.symm.trans other)
      rfl

theorem follows_single {here next : Reference} (step : FollowsKey schema here next) :
    ∃ table column, here = (table, [column]) := by
  cases step with
  | key got found => exact ⟨_, _, rfl⟩

theorem follows_passed {table column : String} {next : Reference}
    (step : FollowsKey schema (table, [column]) next) : (table, column) ∈ passedKeys schema := by
  cases step with
  | key got found => exact passed_key_mem got found

theorem walk_visited {visited : List (String × String)} {last : Reference}
    (walk : Walk schema start visited last) :
    visited.Nodup ∧ visited ⊆ passedKeys schema ∧
      ∀ table column, last = (table, [column]) → (table, column) ∉ visited := by
  induction walk with
  | here => exact ⟨.nil, List.nil_subset _, fun _ _ _ => List.not_mem_nil⟩
  | on walked step unseen ih =>
    obtain ⟨nodup, within, fresh⟩ := ih
    refine ⟨List.nodup_cons.mpr ⟨fresh _ _ rfl, nodup⟩,
      List.cons_subset.mpr ⟨follows_passed step, within⟩, ?_⟩
    intro table column same
    injection same with tables columns
    injection columns with first
    rw [← tables, ← first]
    exact unseen

/-- The code walks, and stops at one of the three ends. -/
theorem resolve_ends {fuel : Nat} {refTable : String} {refColumns : List String}
    {visited : List (String × String)} (walk : Walk schema start visited (refTable, refColumns))
    (enough : (passedKeys schema).length < fuel + visited.length) :
    ∃ seen last, Walk schema start seen last ∧
      WalkEnds schema seen last (resolveFkTargetInner schema fuel refTable refColumns visited) := by
  induction fuel generalizing refTable refColumns visited with
  | zero =>
    obtain ⟨nodup, within, fresh⟩ := walk_visited walk
    have bound := nodup.length_le_of_subset within
    omega
  | succ fuel ih =>
    -- only a reference to one column is followed
    by_cases single : ∃ refCol, refColumns = [refCol]
    · obtain ⟨refCol, rfl⟩ := single
      rw [resolveFkTargetInner]
      cases got : KeyedView.get TableDef.name schema refTable with
      | none =>
        refine ⟨visited, _, walk, .closed fun next step => ?_⟩
        cases step with
        | key again found => cases got.symm.trans again
      | some target =>
        simp only
        cases found : (foreignKeys target).find? (·.columns = [refCol]) with
        | none =>
          refine ⟨visited, _, walk, .closed fun next step => ?_⟩
          cases step with
          | key again other =>
            obtain rfl := Option.some.inj (got.symm.trans again)
            cases found.symm.trans other
        | some next =>
          have step : FollowsKey schema (refTable, [refCol]) (next.refTable, next.refColumns) :=
            .key got found
          simp only
          cases listed : next.refColumns with
          | nil => exact ⟨visited, _, walk, .unnamed step listed⟩
          | cons nextCol rest =>
            rw [listed] at step
            simp only
            split
            · rename_i seen
              rw [List.contains_iff_mem] at seen
              refine ⟨visited, _, walk, ?_⟩
              cases rest with
              | nil =>
                refine .closed fun other again => ⟨_, seen, ?_⟩
                exact follows_unique again step
              | cons second rest => exact .cutShort step rfl seen
            · rename_i unseen
              rw [List.contains_iff_mem] at unseen
              refine ih (.on walk step unseen) ?_
              rw [List.length_cons]
              omega
    · have stays : resolveFkTargetInner schema (fuel + 1) refTable refColumns visited =
          some (refTable, refColumns) := by
        rw [resolveFkTargetInner]
        exact fun refCol same => single ⟨refCol, same⟩
      rw [stays]
      refine ⟨visited, _, walk, .closed fun next step => ?_⟩
      obtain ⟨table, column, same⟩ := follows_single step
      exact absurd ⟨column, congrArg Prod.snd same⟩ single

/-! The references of a walk -/

def walkPath (visited : List (String × String)) (last : Reference) : List Reference :=
  visited.reverse.map keyReference ++ [last]

theorem mem_walk_path {visited : List (String × String)} {last here : Reference} :
    here ∈ walkPath visited last ↔ here = last ∨ ∃ key ∈ visited, here = keyReference key := by
  simp [walkPath, or_comm, eq_comm]

theorem walk_path_on {visited : List (String × String)} {key : String × String}
    {last : Reference} :
    walkPath (key :: visited) last = walkPath visited (keyReference key) ++ [last] := by
  simp [walkPath]

theorem walk_chain {visited : List (String × String)} {last : Reference}
    (walk : Walk schema start visited last) :
    (walkPath visited last).head? = some start ∧
      (walkPath visited last).IsChain (FollowsKey schema) ∧ (walkPath visited last).Nodup := by
  induction walk with
  | here => exact ⟨rfl, .singleton _, List.nodup_singleton _⟩
  | @on visited table column nextTable nextColumn rest walked step unseen ih =>
    obtain ⟨head, chain, nodup⟩ := ih
    rw [walk_path_on]
    refine ⟨?_, ?_, ?_⟩
    · rw [List.head?_append, show (walkPath visited (keyReference (table, column))).head? = _ from
        head, Option.some_or]
    · refine List.isChain_append.mpr ⟨chain, .singleton _, ?_⟩
      intro front isLast back isFirst
      obtain rfl : keyReference (table, column) = front := by simpa [walkPath] using isLast
      obtain rfl : (nextTable, nextColumn :: rest) = back := by simpa using isFirst
      exact step
    · refine List.nodup_append'.mpr ⟨nodup, List.nodup_singleton _, ?_⟩
      rw [List.disjoint_singleton, mem_walk_path]
      rintro (same | ⟨key, mem, same⟩)
      · injection same with tables columns
        injection columns with first
        exact unseen (by rw [tables, first]; exact List.mem_cons_self)
      · injection same with tables columns
        injection columns with first
        exact unseen (by rw [tables, first]; exact List.mem_cons_of_mem _ mem)

theorem reached_of_walk {visited : List (String × String)} {last : Reference}
    (walk : Walk schema start visited last) :
    ∀ here ∈ walkPath visited last, ReflTransGen (FollowsKey schema) start here := by
  induction walk with
  | here =>
    intro here mem
    obtain rfl := List.mem_singleton.mp mem
    exact .refl
  | on walked step unseen ih =>
    intro here mem
    rw [walk_path_on] at mem
    rcases List.mem_append.mp mem with passed | now
    · exact ih here passed
    · obtain rfl := List.mem_singleton.mp now
      exact (ih _ (mem_walk_path.mpr (.inl rfl))).tail step

theorem follows_on_path {visited : List (String × String)} {last : Reference}
    (walk : Walk schema start visited last) {key : String × String} (mem : key ∈ visited)
    {next : Reference} (step : FollowsKey schema (keyReference key) next) :
    next ∈ walkPath visited last := by
  induction walk with
  | here => cases mem
  | on walked taken unseen ih =>
    rw [walk_path_on]
    rcases List.mem_cons.mp mem with rfl | earlier
    · exact List.mem_append_right _ (List.mem_singleton.mpr (follows_unique step taken))
    · exact List.mem_append_left _ (ih earlier)

/-- Where following the end leads back, nothing off the path is reached. -/
theorem reached_on_path {visited : List (String × String)} {last : Reference}
    (walk : Walk schema start visited last)
    (closing : ∀ next, FollowsKey schema last next → next ∈ walkPath visited last)
    {here : Reference} (reached : ReflTransGen (FollowsKey schema) start here) :
    here ∈ walkPath visited last := by
  induction reached with
  | refl => exact List.mem_of_mem_head? (walk_chain walk).1
  | tail reached step ih =>
    rcases mem_walk_path.mp ih with rfl | ⟨key, mem, rfl⟩
    · exact closing _ step
    · exact follows_on_path walk mem step

theorem entered_named {visited : List (String × String)} {last : Reference}
    (walk : Walk schema start visited last) (moved : visited ≠ []) :
    ∃ first rest, last.2 = first :: rest ∧ (last.1, first) ∉ visited := by
  cases walk with
  | here => exact absurd rfl moved
  | on walked step unseen => exact ⟨_, _, rfl, unseen⟩

theorem last_of_chain {path : List Reference} (chain : path.IsChain (FollowsKey schema))
    {here : Reference} (mem : here ∈ path) (stuck : ∀ next, ¬ FollowsKey schema here next) :
    path.getLast? = some here := by
  obtain ⟨front, back, rfl⟩ := List.append_of_mem mem
  cases back with
  | nil => exact List.getLast?_concat
  | cons next back =>
    have step := (List.isChain_append.mp chain).2.1
    exact absurd (List.isChain_cons_cons.mp step).1 (stuck next)

end Chains

/-! The end of a chain -/

section Ends
variable {schema : List TableDef} {start last : Reference} {visited : List (String × String)}

theorem closed_end (walk : Walk schema start visited last)
    (closing : ∀ next, FollowsKey schema last next → ∃ key ∈ (last.1, last.2.headD "") :: visited,
      next = keyReference key) : ChainEnd schema start last ∧ ChainNamed schema start := by
  have back : ∀ next, FollowsKey schema last next → next ∈ walkPath visited last := by
    intro next step
    obtain ⟨key, mem, rfl⟩ := closing next step
    rw [mem_walk_path]
    rcases List.mem_cons.mp mem with rfl | passed
    · obtain ⟨table, column, rfl⟩ := follows_single step
      exact .inl rfl
    · exact .inr ⟨key, passed, rfl⟩
  obtain ⟨head, chain, nodup⟩ := walk_chain walk
  refine ⟨⟨_, head, List.getLast?_concat, chain, nodup, back⟩, ?_⟩
  intro here next reached step
  rcases mem_walk_path.mp (reached_on_path walk back (reached.tail step)) with rfl | ⟨key, _, rfl⟩
  · by_cases moved : visited = []
    · subst moved
      obtain rfl : here = next := List.mem_singleton.mp (reached_on_path walk back reached)
      obtain ⟨table, column, rfl⟩ := follows_single step
      simp
    · obtain ⟨first, rest, named, fresh⟩ := entered_named walk moved
      refine ⟨by simp [named], fun a b more several met => ?_⟩
      obtain rfl : first = a := (List.cons.inj (named.symm.trans several)).1
      rcases mem_walk_path.mp (reached_on_path walk back met) with same | ⟨key, mem, same⟩
      · rw [← same] at several
        cases several
      · injection same with table column
        injection column with only
        exact fresh (by rw [table, only]; exact mem)
  · simp [keyReference]

theorem cut_short_end (walk : Walk schema start visited last) {next : Reference}
    {first second : String} {rest : List String} (step : FollowsKey schema last next)
    (several : next.2 = first :: second :: rest)
    (seen : (next.1, first) ∈ (last.1, last.2.headD "") :: visited) :
    ¬ ChainEnd schema start last ∧ ¬ ChainNamed schema start := by
  have stuck : ∀ other, ¬ FollowsKey schema next other := by
    intro other again
    obtain ⟨table, column, rfl⟩ := follows_single again
    cases several
  constructor
  · rintro ⟨path, _, ends, chain, _, back⟩
    -- the reference that follows cannot be passed on the path, as nothing follows it
    have same := Option.some.inj (ends.symm.trans (last_of_chain chain (back next step) stuck))
    exact stuck next (same ▸ step)
  · intro named
    have reached := reached_of_walk walk
    refine (named last next (reached _ (mem_walk_path.mpr (.inl rfl))) step).2 first second rest
      several (reached _ (mem_walk_path.mpr ?_))
    rcases List.mem_cons.mp seen with same | passed
    · obtain ⟨table, column, rfl⟩ := follows_single step
      injection same with tables columns
      rw [tables, columns]
      exact .inl rfl
    · exact .inr ⟨_, passed, rfl⟩

/-- A chain ends on every schema, and wherever it is cut off the answer is the same. It
    ends in bounds and at its end exactly where every foreign key on the way refers to a
    column, and one that refers to several does not start with a column passed before. -/
theorem chain_end_iff (schema : List TableDef) (fk : TableForeignKey) :
    (∀ more, resolveFkTargetInner schema ((passedKeys schema).length + 1 + more) fk.refTable
      fk.refColumns [] = resolveFkTarget schema fk) ∧
    ((∃ last, resolveFkTarget schema fk = some last ∧
        ChainEnd schema (fk.refTable, fk.refColumns) last) ↔
      ChainNamed schema (fk.refTable, fk.refColumns)) := by
  refine ⟨resolve_fuel fk, ?_⟩
  obtain ⟨visited, last, walk, ends⟩ := @resolve_ends schema _
    ((passedKeys schema).length + 1) _ _ [] .here (by simp)
  rw [resolveFkTarget]
  generalize resolveFkTargetInner schema _ _ _ _ = answer at ends
  cases ends with
  | closed closing =>
    have good := closed_end walk closing
    exact iff_of_true ⟨last, rfl, good.1⟩ good.2
  | unnamed step none_named =>
    refine iff_of_false (by simp) fun named => ?_
    have here := reached_of_walk walk last (mem_walk_path.mpr (.inl rfl))
    exact (named last _ here step).1 none_named
  | cutShort step several seen =>
    have bad := cut_short_end walk step several seen
    refine iff_of_false ?_ bad.2
    rintro ⟨other, same, good⟩
    obtain rfl := Option.some.inj same
    exact bad.1 good

def unnamedSchema : List TableDef :=
  [{ name := "items", description := none, columns := [], constraints :=
      [.foreignKey none ["order_id"] "orders" [] none none .nullifyOrphans] }]

def lineKey : TableForeignKey :=
  { constraintIdx := 0, columns := ["item_order_id"], refTable := "items",
    refColumns := ["order_id"], onDelete := none, onUpdate := none }

theorem unnamed_key_read : ¬ ∀ (schema : List TableDef) (fk : TableForeignKey), ∃ last,
    resolveFkTarget schema fk = some last ∧
      ChainEnd schema (fk.refTable, fk.refColumns) last := by
  intro always
  obtain ⟨last, found, _⟩ := always unnamedSchema lineKey
  have past_end : resolveFkTarget unnamedSchema lineKey = none := by decide
  cases past_end.symm.trans found

end Ends

end Vespertide
