import Mathlib.Data.List.Basic
import Mathlib.Data.List.Infix

/-!
Files and directories with the times of their last change. A path lists its
components from the last one up, so the directory of a path is its tail. Writing
a file makes the directories it needs; a directory changes when an entry is made
in it or leaves it.
-/
namespace FileTree

abbrev Path := List String

inductive Node where
  | file (contents : String)
  | directory
  deriving DecidableEq

structure Entry where
  path : Path
  node : Node
  mtime : Nat
  deriving DecidableEq

abbrev Tree := List Entry

def Entry.isFile (e : Entry) : Bool := e.node ≠ .directory

def Entry.contents (e : Entry) : String :=
  match e.node with
  | .file contents => contents
  | .directory => ""

def isEntryOf (dir : Path) : Path → Bool
  | [] => false
  | _ :: parent => parent = dir

abbrev Entry.within (dir : Path) (e : Entry) : Bool := isEntryOf dir e.path

theorem entry_of_iff {dir p : Path} :
    isEntryOf dir p = true ↔ ∃ name, p = name :: dir := by
  cases p <;> simp [isEntryOf]

section Lookup
variable (tree : Tree)

def find (p : Path) : Option Entry := tree.find? (·.path = p)

def files : Tree := tree.filter (·.isFile)

def file (p : Path) : Option Entry := (files tree).find? (·.path = p)

/-- The latest change among the entries of a directory. -/
def newest (dir : Path) : Nat := ((tree.filter (·.within dir)).map (·.mtime)).foldr max 0

end Lookup

/-! Changes -/

section Change
variable (time : Nat)

def touch (dir : Path) (tree : Tree) : Tree :=
  tree.map fun e => if e.path = dir ∧ e.node = .directory then { e with mtime := time } else e

def makeDir : Path → Tree → Tree
  | [], tree => tree
  | name :: parent, tree =>
      if (find tree (name :: parent)).isSome then tree
      else touch time parent (makeDir parent tree) ++ [⟨name :: parent, .directory, time⟩]

/-- Nothing is written over a directory, or below a file. -/
def write (p : Path) (contents : String) (tree : Tree) : Tree :=
  match p, find tree p with
  | _, some ⟨_, .directory, _⟩ => tree
  | _, some ⟨_, .file _, _⟩ =>
      tree.map fun e => if e.path = p then ⟨p, .file contents, time⟩ else e
  | [], none => tree
  | name :: parent, none =>
      if parent.tails.any fun dir => (file tree dir).isSome then tree
      else touch time parent (makeDir time parent tree) ++ [⟨name :: parent, .file contents, time⟩]

def delete (p : Path) (tree : Tree) : Tree :=
  match find tree p with
  | some ⟨_, .file _, _⟩ => touch time p.tail (tree.filter (·.path ≠ p))
  | _ => tree

end Change

/-! What a change can do -/

/-- All that a change at a path can do: the other files stay as they are and are listed in
    the same order, what exists is what existed except on the way to the path, and an entry
    that is not as it was has the time of the change. -/
structure Changes (time : Nat) (p : Path) (tree tree' : Tree) : Prop where
  other_files : ∀ P : Path → Bool, P p = false →
    (files tree').filter (P ·.path) = (files tree).filter (P ·.path)
  exists_away : ∀ q, ¬ q <:+ p → (find tree' q).isSome = (find tree q).isSome
  new_or_old : ∀ e ∈ tree', e.mtime = time ∨ e ∈ tree
  kept : ∀ e ∈ tree, e.path ≠ p → ∃ e' ∈ tree', e'.path = e.path ∧ (e' = e ∨ e'.mtime = time)

section Changes
variable {time : Nat} {p : Path} {tree tree' tree'' : Tree}

theorem Changes.refl : Changes time p tree tree :=
  ⟨fun _ _ => rfl, fun _ _ => rfl, fun _ mem => .inr mem, fun e mem _ => ⟨e, mem, rfl, .inl rfl⟩⟩

theorem Changes.trans (first : Changes time p tree tree') (second : Changes time p tree' tree'') :
    Changes time p tree tree'' where
  other_files P away := (second.other_files P away).trans (first.other_files P away)
  exists_away q away := (second.exists_away q away).trans (first.exists_away q away)
  new_or_old e mem := by
    rcases second.new_or_old e mem with new | old
    · exact .inl new
    · exact first.new_or_old e old
  kept e mem away := by
    obtain ⟨e', mem', same_path, same⟩ := first.kept e mem away
    obtain ⟨e'', mem'', same_path', same'⟩ := second.kept e' mem' (same_path ▸ away)
    refine ⟨e'', mem'', same_path'.trans same_path, ?_⟩
    rcases same' with rfl | new
    · exact same
    · exact .inr new

theorem changes_map {f : Entry → Entry} (same_path : ∀ e, (f e).path = e.path)
    (timed : ∀ e, f e = e ∨ (f e).mtime = time)
    (other : ∀ e, e.path ≠ p → (f e).isFile = e.isFile ∧ (e.isFile = true → f e = e)) :
    Changes time p tree (tree.map f) where
  other_files P away := by
    induction tree with
    | nil => rfl
    | cons e tree ih =>
      unfold files at ih ⊢
      rw [List.map_cons, List.filter_cons, List.filter_cons]
      by_cases at_path : e.path = p
      · have out : P e.path = false := at_path ▸ away
        split <;> split <;> simp [same_path, out, ih]
      · obtain ⟨same, stays⟩ := other e at_path
        rw [same]
        cases kind : e.isFile with
        | false => simpa using ih
        | true => simp [stays kind, List.filter_cons, ih]
  exists_away q _ := by
    unfold find
    induction tree with
    | nil => rfl
    | cons e tree ih => by_cases found : e.path = q <;> simp_all
  new_or_old e mem := by
    obtain ⟨old, old_mem, rfl⟩ := List.mem_map.mp mem
    rcases timed old with same | new
    · exact .inr (by rwa [same])
    · exact .inl new
  kept e mem _ := ⟨f e, List.mem_map_of_mem mem, same_path e, timed e⟩

theorem changes_touch (dir : Path) : Changes time p tree (touch time dir tree) := by
  refine changes_map (fun e => ?_) (fun e => ?_) (fun e _ => ?_)
  · split <;> rfl
  · split
    · exact .inr rfl
    · exact .inl rfl
  · split
    · rename_i changed
      simp [Entry.isFile, changed.2]
    · exact ⟨rfl, fun _ => rfl⟩

theorem changes_append {q : Path} {node : Node} (on_way : q <:+ p)
    (own : node = .directory ∨ q = p) : Changes time p tree (tree ++ [⟨q, node, time⟩]) where
  other_files P away := by
    rw [files, List.filter_append, List.filter_append, files]
    rcases own with rfl | rfl
    · simp [Entry.isFile]
    · cases node <;> simp [Entry.isFile, away]
  exists_away r away := by
    have other : q ≠ r := fun same => away (same ▸ on_way)
    simp [find, List.find?_append, other]
  new_or_old e mem := by
    rcases List.mem_append.mp mem with old | new
    · exact .inr old
    · rw [List.mem_singleton.mp new]
      exact .inl rfl
  kept e mem _ := ⟨e, List.mem_append_left _ mem, rfl, .inl rfl⟩

theorem changes_make_dir : ∀ {dir : Path} {tree : Tree}, dir <:+ p →
    Changes time p tree (makeDir time dir tree)
  | [], _, _ => .refl
  | name :: parent, tree, on_way => by
    have above : parent <:+ p := (List.suffix_cons name parent).trans on_way
    rw [makeDir]
    split
    · exact .refl
    · exact ((changes_make_dir above).trans (changes_touch parent)).trans
        (changes_append on_way (.inl rfl))

theorem changes_write (contents : String) : Changes time p tree (write time p contents tree) := by
  unfold write
  split
  · exact .refl
  · refine changes_map (fun e => ?_) (fun e => ?_) (fun e other => ?_)
    · split
      · rename_i same
        exact same.symm
      · rfl
    · split
      · exact .inr rfl
      · exact .inl rfl
    · rw [if_neg other]
      exact ⟨rfl, fun _ => rfl⟩
  · exact .refl
  · rename_i name parent _
    split
    · exact .refl
    · exact ((changes_make_dir (List.suffix_cons name parent)).trans (changes_touch parent)).trans
        (changes_append List.suffix_rfl (.inr rfl))

theorem changes_delete : Changes time p tree (delete time p tree) := by
  unfold delete
  split
  · refine Changes.trans ?_ (changes_touch p.tail)
    refine ⟨fun P away => ?_, fun q away => ?_, fun e mem => ?_, fun e mem away => ?_⟩
    · unfold files
      rw [List.filter_filter, List.filter_filter, List.filter_filter]
      refine List.filter_congr fun e _ => ?_
      by_cases same : e.path = p <;> simp [same, away]
    · have other : q ≠ p := fun same => away (same ▸ List.suffix_rfl)
      rw [Bool.eq_iff_iff, find, find, List.find?_isSome, List.find?_isSome]
      constructor
      · rintro ⟨e, mem, same⟩
        exact ⟨e, (List.mem_filter.mp mem).1, same⟩
      · rintro ⟨e, mem, same⟩
        have out : e.path ≠ p := by simpa [of_decide_eq_true same] using other
        exact ⟨e, List.mem_filter.mpr ⟨mem, by simpa using out⟩, same⟩
    · exact .inr (List.mem_filter.mp mem).1
    · exact ⟨e, List.mem_filter.mpr ⟨mem, by simpa using away⟩, rfl, .inl rfl⟩
  · exact .refl

end Changes

/-! The latest change of a directory -/

section Newest
variable {time : Nat} {p dir : Path} {tree tree' : Tree}

theorem newest_le_iff {bound : Nat} :
    newest tree dir ≤ bound ↔ ∀ e ∈ tree, e.within dir = true → e.mtime ≤ bound := by
  unfold newest
  induction tree with
  | nil => simp
  | cons e tree ih =>
    by_cases inside : e.within dir
    · rw [List.filter_cons_of_pos inside, List.map_cons, List.foldr_cons, Nat.max_le, ih]
      simp [inside]
    · rw [List.filter_cons_of_neg inside, ih]
      simp [inside]

theorem le_newest {e : Entry} (mem : e ∈ tree) (inside : e.within dir = true) :
    e.mtime ≤ newest tree dir :=
  newest_le_iff.mp le_rfl e mem inside

theorem Changes.newest_le (changes : Changes time p tree tree')
    (past : ∀ e ∈ tree, e.mtime < time) : newest tree' dir ≤ time := by
  refine newest_le_iff.mpr fun e mem _ => ?_
  rcases changes.new_or_old e mem with new | old
  · exact new.le
  · exact (past e old).le

/-- Away from the path itself the latest change is what it was, or this one. -/
theorem Changes.newest_away (changes : Changes time p tree tree')
    (past : ∀ e ∈ tree, e.mtime < time) (outside : ∀ name, p ≠ name :: dir) :
    newest tree' dir = newest tree dir ∨ newest tree' dir = time := by
  by_cases latest : newest tree' dir = time
  · exact .inr latest
  have unreached : ∀ e ∈ tree', e.within dir = true → e.mtime ≠ time := fun e mem inside same =>
    latest (le_antisymm (changes.newest_le past) (same ▸ le_newest mem inside))
  refine .inl (le_antisymm ?_ ?_)
  · refine newest_le_iff.mpr fun e mem inside => ?_
    have old := (changes.new_or_old e mem).resolve_left (unreached e mem inside)
    exact le_newest old inside
  · refine newest_le_iff.mpr fun e mem inside => ?_
    have away : e.path ≠ p := by
      intro same
      obtain ⟨name, at_path⟩ := entry_of_iff.mp inside
      exact outside name (same.symm.trans at_path)
    obtain ⟨e', mem', same_path, same | new⟩ := changes.kept e mem away
    · exact same ▸ le_newest mem' (same ▸ inside)
    · refine absurd new (unreached e' mem' ?_)
      rwa [Entry.within, same_path]

theorem newest_mem (positive : newest tree dir ≠ 0) :
    ∃ e ∈ tree, e.within dir = true ∧ e.mtime = newest tree dir := by
  by_contra none
  have below : newest tree dir ≤ newest tree dir - 1 := newest_le_iff.mpr fun e mem inside => by
    have le := le_newest mem inside
    have ne : e.mtime ≠ newest tree dir := fun same => none ⟨e, mem, inside, same⟩
    omega
  omega

theorem newest_eq {e : Entry} (bound : newest tree dir ≤ time) (mem : e ∈ tree)
    (inside : e.within dir = true) (latest : e.mtime = time) : newest tree dir = time :=
  le_antisymm bound (latest ▸ le_newest mem inside)

end Newest

/-! Files away from a change -/

theorem Changes.file_away {time : Nat} {p q : Path} {tree tree' : Tree}
    (changes : Changes time p tree tree') (away : p ≠ q) : file tree' q = file tree q := by
  have same := changes.other_files (fun r => decide (r = q)) (decide_eq_false away)
  rw [file, file, ← List.head?_filter, ← List.head?_filter, same]

/-! What is written and what is deleted -/

section Effect
variable {time : Nat} {p : Path} {tree : Tree}

theorem write_effect (time : Nat) (p : Path) (contents : String) (tree : Tree) :
    write time p contents tree = tree ∨
      ⟨p, .file contents, time⟩ ∈ write time p contents tree := by
  unfold write
  split
  · exact .inl rfl
  · rename_i found
    have mem := List.mem_of_find?_eq_some found
    have at_path := List.find?_some found
    refine .inr (List.mem_map.mpr ⟨_, mem, ?_⟩)
    rw [if_pos (of_decide_eq_true at_path)]
  · exact .inl rfl
  · split
    · exact .inl rfl
    · exact .inr (List.mem_append_right _ (List.mem_singleton_self _))

theorem touch_mem {e : Entry} {dir : Path} (mem : e ∈ tree) (at_path : e.path = dir)
    (kind : e.node = .directory) : ⟨dir, .directory, time⟩ ∈ touch time dir tree := by
  refine List.mem_map.mpr ⟨e, mem, ?_⟩
  rw [if_pos ⟨at_path, kind⟩, at_path, kind]

theorem make_dir_mem {dir : Path} (nonempty : dir ≠ []) (no_file : file tree dir = none) :
    ∃ e ∈ makeDir time dir tree, e.path = dir ∧ e.node = .directory := by
  cases dir with
  | nil => exact absurd rfl nonempty
  | cons name parent =>
    rw [makeDir]
    split
    · rename_i found
      obtain ⟨e, found⟩ := Option.isSome_iff_exists.mp found
      have mem := List.mem_of_find?_eq_some found
      have at_path := List.find?_some found
      refine ⟨e, mem, of_decide_eq_true at_path, ?_⟩
      by_contra kind
      have listed : e ∈ files tree := List.mem_filter.mpr ⟨mem, decide_eq_true kind⟩
      have present := List.find?_eq_none.mp no_file e listed
      exact present at_path
    · exact ⟨_, List.mem_append_right _ (List.mem_singleton_self _), rfl, rfl⟩

theorem write_new_effect {name : String} {parent : Path} (contents : String)
    (nonempty : parent ≠ []) (new : find tree (name :: parent) = none) :
    write time (name :: parent) contents tree = tree ∨
      ⟨parent, .directory, time⟩ ∈ write time (name :: parent) contents tree := by
  simp only [write, new]
  split
  · exact .inl rfl
  · rename_i clear
    have no_file : file tree parent = none := by
      cases parent with
      | nil => exact absurd rfl nonempty
      | cons n ns =>
        simp only [List.tails_cons, List.any_cons, Bool.or_eq_true, not_or] at clear
        exact Option.not_isSome_iff_eq_none.mp clear.1
    obtain ⟨e, mem, at_path, kind⟩ := @make_dir_mem time _ _ nonempty no_file
    exact .inr (List.mem_append_left _ (touch_mem mem at_path kind))

theorem delete_effect {e : Entry} (mem : e ∈ tree) (at_path : e.path = p.tail)
    (kind : e.node = .directory) (nonempty : p ≠ []) :
    delete time p tree = tree ∨ ⟨p.tail, .directory, time⟩ ∈ delete time p tree := by
  unfold delete
  split
  · have away : e.path ≠ p := by
      rw [at_path]
      intro same
      have lengths := congrArg List.length same
      have positive := List.length_pos_iff.mpr nonempty
      rw [List.length_tail] at lengths
      omega
    exact .inr (touch_mem (List.mem_filter.mpr ⟨mem, by simpa using away⟩) at_path kind)
  · exact .inl rfl

theorem file_mem {tree : Tree} {e : Entry} (found : file tree p = some e) :
    e ∈ tree ∧ e.path = p := by
  have at_path := List.find?_some found
  have mem := List.mem_of_find?_eq_some found
  exact ⟨(List.mem_filter.mp mem).1, of_decide_eq_true at_path⟩

theorem delete_gone (time : Nat) (p : Path) (tree : Tree) :
    delete time p tree = tree ∨ ∀ e ∈ delete time p tree, e.path ≠ p := by
  unfold delete
  split
  · refine .inr fun e mem => ?_
    obtain ⟨old, old_mem, rfl⟩ := List.mem_map.mp mem
    have away : old.path ≠ p := by simpa using (List.mem_filter.mp old_mem).2
    split <;> exact away
  · exact .inl rfl

theorem file_write (time : Nat) (p : Path) (contents : String) (tree : Tree) :
    write time p contents tree = tree ∨
      ∀ e, file (write time p contents tree) p = some e → e.mtime = time := by
  by_cases unknown : find tree p = none
  · refine .inr fun e found => ?_
    obtain ⟨mem, at_path⟩ := file_mem found
    refine ((changes_write contents).new_or_old e mem).resolve_right fun old => ?_
    exact List.find?_eq_none.mp unknown e old (decide_eq_true at_path)
  · unfold write
    split
    · exact .inl rfl
    · refine .inr fun e found => ?_
      obtain ⟨mem, at_path⟩ := file_mem found
      obtain ⟨old, -, rfl⟩ := List.mem_map.mp mem
      split at at_path
      · rename_i same
        rw [if_pos same]
      · rename_i other
        exact absurd at_path other
    · exact .inl rfl
    · rename_i none
      exact absurd none unknown

end Effect

end FileTree
