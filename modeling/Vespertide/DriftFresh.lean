import Vespertide.Drift
import Vespertide.Support.Results

/-!
Whether the caches of the drift computation can be trusted. A change of the
project is noticed if it moves one of the three times of the key; as long as
every change is noticed, or touches nothing that a call reads, no call returns
what an empty cache would not give.
-/
namespace Vespertide
open FileTree (Path Tree)

variable {Docs SyntaxTree Record : Type} (ws : Workspace Docs SyntaxTree Record)

/-! What a call reads -/

def anchorPaths (modelsDir : Path) (tableName : String) : List Path :=
  match ws.lookup tableName with
  | some uri => [uri]
  | none => ["json", "yaml", "yml"].map (setExtension · (joinPath modelsDir tableName))

/-- What is loaded, and the directories it is looked for in. -/
def ReadsForLoad (root : Path) (config : VespertideConfig) (p : Path) : Prop :=
  let models := joinPath root config.modelsDir
  let migrations := joinPath root config.migrationsDir
  p = models ∨ p = migrations ∨ isModelPath models p = true ∨ isMigrationPath migrations p = true

/-- A call from the root looks at the path, or at one above it. -/
def Reads (tree : Tree) (root p : Path) : Prop :=
  p = configPath root ∨
  (∃ config, loadConfig ws tree root = some config ∧ ReadsForLoad root config p) ∨
  ∃ loaded plan action tableName, loadState ws tree root = some loaded ∧
    diffSchemas loaded.baseline loaded.currentModels = .ok plan ∧ action ∈ plan.actions ∧
    action.tableName = some tableName ∧ ∃ anchor ∈ anchorPaths ws loaded.modelsDir tableName,
      anchor <:+ p

section Frame
variable {ws} {time : Nat} {p root : Path} {tree tree' : Tree}

theorem read_away (changes : FileTree.Changes time p tree tree') {q : Path} (away : p ≠ q) :
    readToString tree' q = readToString tree q := by
  rw [readToString, readToString, changes.file_away away]

theorem config_away (changes : FileTree.Changes time p tree tree')
    (unread : ¬ Reads ws tree root p) : loadConfig ws tree' root = loadConfig ws tree root := by
  have away : p ≠ configPath root := fun same => unread (.inl same)
  rw [loadConfig, loadConfig, read_away changes away]

theorem load_away {α : Type} (changes : FileTree.Changes time p tree tree') {dir : Path}
    {collects : Path → Bool} {load load' : Path → Option α} (away : p ≠ dir)
    (apart : collects p = false) (same : ∀ q, p ≠ q → load' q = load q) :
    loadFiles ws tree' dir collects load' = loadFiles ws tree dir collects load := by
  rw [loadFiles, loadFiles, collectPaths, collectPaths, changes.file_away away,
    changes.other_files collects apart]
  split
  · rfl
  · refine Results.map_m_congr fun q mem => same q ?_
    rintro rfl
    obtain ⟨e, listed, rfl⟩ := List.mem_map.mp ((ws.read_all _).mem_iff.mp mem)
    rw [(List.mem_filter.mp listed).2] at apart
    cases apart

theorem models_away (changes : FileTree.Changes time p tree tree')
    (unread : ¬ Reads ws tree root p) :
    loadModelsFromDir ws tree' root = loadModelsFromDir ws tree root := by
  unfold loadModelsFromDir
  rw [config_away changes unread]
  cases configured : loadConfig ws tree root with
  | none => rfl
  | some config =>
    have apart : ¬ ReadsForLoad root config p := fun reads =>
      unread (.inr (.inl ⟨config, configured, reads⟩))
    refine load_away changes (fun same => apart (.inl same))
      (Bool.eq_false_iff.mpr fun reads => apart (.inr (.inr (.inl reads)))) fun q away => ?_
    rw [loadModelFile, loadModelFile, read_away changes away]

theorem migrations_away (changes : FileTree.Changes time p tree tree')
    (unread : ¬ Reads ws tree root p) :
    loadMigrationsFromDir ws tree' root = loadMigrationsFromDir ws tree root := by
  unfold loadMigrationsFromDir
  rw [config_away changes unread]
  cases configured : loadConfig ws tree root with
  | none => rfl
  | some config =>
    have apart : ¬ ReadsForLoad root config p := fun reads =>
      unread (.inr (.inl ⟨config, configured, reads⟩))
    have same := @load_away _ _ _ ws _ _ _ _ _ changes _ _ _ _ (fun same => apart (.inr (.inl same)))
      (Bool.eq_false_iff.mpr fun reads => apart (.inr (.inr (.inr reads))))
      (fun q away => show loadMigrationFile ws tree' q = loadMigrationFile ws tree q by
        rw [loadMigrationFile, loadMigrationFile, read_away changes away])
    simp only [bind, Option.bind, same]

theorem state_away (changes : FileTree.Changes time p tree tree')
    (unread : ¬ Reads ws tree root p) : loadState ws tree' root = loadState ws tree root := by
  rw [loadState, loadState, config_away changes unread, models_away changes unread,
    migrations_away changes unread]

theorem uri_listed {modelsDir uri : Path} {tableName : String}
    (located : tableUri ws tree modelsDir tableName = some uri) :
    uri ∈ anchorPaths ws modelsDir tableName := by
  unfold tableUri at located
  unfold anchorPaths
  cases indexed : ws.lookup tableName with
  | some known =>
    rw [indexed] at located
    exact List.mem_singleton.mpr (Option.some.inj located).symm
  | none =>
    rw [indexed] at located
    exact List.mem_of_find?_eq_some located

theorem uri_away (changes : FileTree.Changes time p tree tree') {modelsDir : Path}
    {tableName : String} (away : ∀ anchor ∈ anchorPaths ws modelsDir tableName, ¬ anchor <:+ p) :
    tableUri ws tree' modelsDir tableName = tableUri ws tree modelsDir tableName := by
  unfold tableUri
  unfold anchorPaths at away
  cases indexed : ws.lookup tableName with
  | some known => rfl
  | none =>
    rw [indexed] at away
    rw [guessUri, guessUri, ← List.head?_filter, ← List.head?_filter]
    refine congrArg List.head? (List.filter_congr fun anchor listed => ?_)
    exact changes.exists_away anchor (away anchor listed)

theorem drifts_away (changes : FileTree.Changes time p tree tree')
    (unread : ¬ Reads ws tree root p) {loaded : LoadedState}
    (found : loadState ws tree root = some loaded) (docs : Docs) :
    planDrifts ws tree' docs loaded = planDrifts ws tree docs loaded := by
  unfold planDrifts
  split
  · rfl
  · rename_i plan diffed
    refine congrArg some (List.filterMap_congr fun action mem => ?_)
    unfold actionDrift
    cases named : action.tableName with
    | none => rfl
    | some tableName =>
      have away : ∀ anchor ∈ anchorPaths ws loaded.modelsDir tableName, ¬ anchor <:+ p :=
        fun anchor listed above => unread (.inr (.inr
          ⟨loaded, plan, action, tableName, found, diffed, mem, named, anchor, listed, above⟩))
      have same_source : ∀ uri ∈ anchorPaths ws loaded.modelsDir tableName,
          sourceAndTree ws tree' docs uri = sourceAndTree ws tree docs uri := by
        intro uri listed
        have apart : p ≠ uri := fun same => away uri listed (same ▸ List.suffix_rfl)
        rw [sourceAndTree, sourceAndTree, read_away changes apart]
      simp only [bind, Option.bind, uri_away changes away]
      cases located : tableUri ws tree loaded.modelsDir tableName with
      | none => rfl
      | some uri => simp only [same_source uri (uri_listed located)]

end Frame

/-! Noticing a change -/

def keyDirs (root : Path) : List Path := ["models" :: root, "migrations" :: root]

/-- A write that a cache filled from the root notices or need not notice: of the
    configuration, of an entry of the two directories, of a new entry in one of their
    directories, or of nothing that is read. -/
def WriteNoticed (tree : Tree) (root p : Path) : Prop :=
  p = configPath root ∨
  (∃ dir ∈ keyDirs root, FileTree.isEntryOf dir p = true ∨
    (FileTree.find tree p = none ∧ FileTree.isEntryOf dir p.tail = true)) ∨
  ¬ Reads ws tree root p

/-- The entry leaves others that show it is gone: a later one than when the cache was
    filled, or none of that time. -/
def Displaced (tree : Tree) (dir p : Path) (filled : Nat) : Prop :=
  FileTree.isEntryOf dir p = true ∧
    ((∃ e ∈ tree, e.within dir = true ∧ e.path ≠ p ∧ filled < e.mtime) ∨
      (filled ≠ 0 ∧ ∀ e ∈ tree, e.within dir = true → e.path ≠ p → e.mtime ≠ filled))

/-- The same of a deletion: of the configuration, out of a directory in one of the two
    directories, of nothing that is read or counted, or of an entry that is displaced. -/
def DeleteNoticed (tree : Tree) (key : LoadedKey) (p : Path) : Prop :=
  p = configPath key.projectRoot ∨
  (∃ dir ∈ keyDirs key.projectRoot, ∃ e ∈ tree, e.path = p.tail ∧ e.node = .directory ∧
    e.within dir = true) ∨
  (¬ Reads ws tree key.projectRoot p ∧
    ∀ dir ∈ keyDirs key.projectRoot, FileTree.isEntryOf dir p = false) ∨
  Displaced tree ("models" :: key.projectRoot) p key.maxModelMtime ∨
  Displaced tree ("migrations" :: key.projectRoot) p key.maxMigrationMtime

structure Current (tree : Tree) (key : LoadedKey) : Prop where
  config : (FileTree.file tree (configPath key.projectRoot)).map (·.mtime) = some key.configMtime
  models : FileTree.newest tree ("models" :: key.projectRoot) = key.maxModelMtime
  migrations : FileTree.newest tree ("migrations" :: key.projectRoot) = key.maxMigrationMtime

structure Before (time : Nat) (key : LoadedKey) : Prop where
  config : key.configMtime < time
  models : key.maxModelMtime < time
  migrations : key.maxMigrationMtime < time

section Noticing
variable {ws} {time : Nat} {p : Path} {tree tree' : Tree} {key : LoadedKey}

theorem Current.key_dirs (current : Current tree key) {dir : Path}
    (listed : dir ∈ keyDirs key.projectRoot) (before : Before time key) :
    FileTree.newest tree dir < time := by
  rcases List.mem_cons.mp listed with rfl | rest
  · exact current.models ▸ before.models
  · obtain rfl := List.mem_singleton.mp rest
    exact current.migrations ▸ before.migrations

/-- A change that leaves the three times where they are was not among the entries. -/
theorem current_back (changes : FileTree.Changes time p tree tree')
    (past : ∀ e ∈ tree, e.mtime < time) (before : Before time key)
    (config : p ≠ configPath key.projectRoot)
    (outside : ∀ dir ∈ keyDirs key.projectRoot, FileTree.isEntryOf dir p = false)
    (current : Current tree' key) : Current tree key := by
  have same : ∀ dir ∈ keyDirs key.projectRoot,
      FileTree.newest tree' dir = FileTree.newest tree dir := by
    intro dir listed
    refine (changes.newest_away past fun name at_path => ?_).resolve_right
      (current.key_dirs listed before).ne
    have inside := outside dir listed
    rw [FileTree.entry_of_iff.mpr ⟨name, at_path⟩] at inside
    cases inside
  exact ⟨changes.file_away config ▸ current.config,
    same ("models" :: key.projectRoot) (by simp [keyDirs]) ▸ current.models,
    same ("migrations" :: key.projectRoot) (by simp [keyDirs]) ▸ current.migrations⟩

theorem not_current {tree'' : Tree} (changes : FileTree.Changes time p tree tree'')
    (past : ∀ e ∈ tree, e.mtime < time) (before : Before time key) {dir : Path}
    (listed : dir ∈ keyDirs key.projectRoot) {e : FileTree.Entry} (mem : e ∈ tree'')
    (inside : e.within dir = true) (latest : e.mtime = time) : ¬ Current tree'' key := by
  intro current
  have reached := FileTree.newest_eq (changes.newest_le past) mem inside latest
  exact absurd reached (current.key_dirs listed before).ne

theorem write_unread {contents : String} (past : ∀ e ∈ tree, e.mtime < time)
    (before : Before time key) (noticed : WriteNoticed ws tree key.projectRoot p)
    (current : Current (FileTree.write time p contents tree) key) :
    FileTree.write time p contents tree = tree ∨
      (¬ Reads ws tree key.projectRoot p ∧ Current tree key) := by
  have changes := @FileTree.changes_write time p tree contents
  rcases FileTree.write_effect time p contents tree with same | written
  · exact .inl same
  have config : p ≠ configPath key.projectRoot := by
    rintro rfl
    rcases FileTree.file_write time (configPath key.projectRoot) contents tree with same | latest
    · rw [same] at written
      exact absurd rfl (past _ written).ne
    · obtain ⟨e, found, mtime⟩ := Option.map_eq_some_iff.mp current.config
      have this_time := latest e found
      exact absurd (mtime.symm.trans this_time) before.config.ne
  have outside : ∀ dir ∈ keyDirs key.projectRoot, FileTree.isEntryOf dir p = false := by
    intro dir listed
    refine Bool.eq_false_iff.mpr fun inside => ?_
    exact not_current changes past before listed written inside rfl current
  rcases noticed with same | ⟨dir, listed, inside | ⟨new, inside⟩⟩ | unread
  · exact absurd same config
  · rw [outside dir listed] at inside
    cases inside
  · obtain ⟨sub, above⟩ := FileTree.entry_of_iff.mp inside
    cases p with
    | nil => cases above
    | cons name parent =>
      obtain rfl : parent = sub :: dir := above
      rcases @FileTree.write_new_effect time _ _ _ contents (List.cons_ne_nil sub dir) new with
        same | touched
      · exact .inl same
      · exact absurd current (not_current changes past before listed touched inside rfl)
  · exact .inr ⟨unread, current_back changes past before config outside current⟩

theorem newest_displaced {dir : Path} {filled : Nat} (before : filled < time)
    (displaced : Displaced tree dir p filled) :
    FileTree.delete time p tree = tree ∨
      FileTree.newest (FileTree.delete time p tree) dir ≠ filled := by
  have changes := @FileTree.changes_delete time p tree
  rcases FileTree.delete_gone time p tree with same | gone
  · exact .inl same
  obtain ⟨inside, ⟨e, mem, e_inside, apart, later⟩ | ⟨positive, none_left⟩⟩ := displaced
  · obtain ⟨e', mem', same_path, kept⟩ := changes.kept e mem apart
    have reached : e'.mtime ≤ FileTree.newest (FileTree.delete time p tree) dir :=
      FileTree.le_newest mem' (by rwa [FileTree.Entry.within, same_path])
    have later' : filled < e'.mtime := by
      rcases kept with rfl | new
      · exact later
      · exact new ▸ before
    exact .inr (later'.trans_le reached).ne'
  · refine .inr fun same => ?_
    obtain ⟨e, mem, e_inside, latest⟩ := FileTree.newest_mem (same ▸ positive)
    rw [same] at latest
    have old := (changes.new_or_old e mem).resolve_left (latest ▸ before.ne)
    exact none_left e old e_inside (gone e mem) latest

theorem delete_unread (past : ∀ e ∈ tree, e.mtime < time)
    (before : Before time key) (noticed : DeleteNoticed ws tree key p)
    (current : Current (FileTree.delete time p tree) key) :
    FileTree.delete time p tree = tree ∨
      (¬ Reads ws tree key.projectRoot p ∧ Current tree key) := by
  have changes := @FileTree.changes_delete time p tree
  rcases noticed with rfl | ⟨dir, listed, e, mem, at_path, kind, inside⟩ | ⟨unread, outside⟩ |
    displaced | displaced
  · rcases FileTree.delete_gone time (configPath key.projectRoot) tree with same | gone
    · exact .inl same
    · obtain ⟨e, found, -⟩ := Option.map_eq_some_iff.mp current.config
      obtain ⟨mem, at_path⟩ := FileTree.file_mem found
      exact absurd at_path (gone e mem)
  · obtain ⟨sub, above⟩ := FileTree.entry_of_iff.mp inside
    have nonempty : p ≠ [] := by
      rintro rfl
      rw [at_path] at above
      cases above
    rcases @FileTree.delete_effect time _ _ _ mem at_path kind nonempty with same | touched
    · exact .inl same
    · rw [FileTree.Entry.within, at_path] at inside
      exact absurd current (not_current changes past before listed touched inside rfl)
  · have config : p ≠ configPath key.projectRoot := fun same => unread (.inl same)
    exact .inr ⟨unread, current_back changes past before config outside current⟩
  · exact (newest_displaced before.models displaced).imp_right fun moved =>
      absurd current.models moved
  · exact (newest_displaced before.migrations displaced).imp_right fun moved =>
      absurd current.migrations moved

end Noticing

/-! The editor -/

structure Editor (Docs Record : Type) where
  tree : Tree
  clock : Nat
  docs : Docs
  cache : DriftCache Record

/-- What happens between two calls. A change of a file takes a later time than any before. -/
inductive Event (Docs : Type) where
  | write (p : Path) (contents : String) (delay : Nat)
  | delete (p : Path) (delay : Nat)
  | edit (docs : Docs)
  | call

def Editor.step (e : Editor Docs Record) : Event Docs → Editor Docs Record
  | .write p contents delay =>
      let time := e.clock + delay + 1
      { e with tree := FileTree.write time p contents e.tree, clock := time }
  | .delete p delay =>
      let time := e.clock + delay + 1
      { e with tree := FileTree.delete time p e.tree, clock := time }
  | .edit docs => { e with docs := docs }
  | .call => { e with cache := (computeWithCache ws e.tree e.docs e.cache).2 }

def DriftCache.keys (cache : DriftCache Record) : List LoadedKey :=
  (cache.state.map (·.1)).toList ++ (cache.drifts.map (·.1)).toList

def Noticed (e : Editor Docs Record) : Event Docs → Prop
  | .write p _ _ => ∀ key ∈ e.cache.keys, WriteNoticed ws e.tree key.projectRoot p
  | .delete p _ => ∀ key ∈ e.cache.keys, DeleteNoticed ws e.tree key p
  | .edit _ => True
  | .call => True

/-- Everything that is kept is what a call without it would make, as long as the project has
    the times it is kept under. -/
structure CacheFresh (tree : Tree) (clock : Nat) (cache : DriftCache Record) : Prop where
  before : ∀ key ∈ cache.keys, Before (clock + 1) key
  state : ∀ key loaded, cache.state = some (key, loaded) → Current tree key →
    loadState ws tree key.projectRoot = some loaded
  drifts : ∀ key print drifts, cache.drifts = some (key, print, drifts) → Current tree key →
    ∀ docs, ws.fingerprint docs = print → ∃ loaded,
      loadState ws tree key.projectRoot = some loaded ∧
        planDrifts ws tree docs loaded = some drifts

structure Fresh (e : Editor Docs Record) : Prop where
  past : ∀ entry ∈ e.tree, entry.mtime ≤ e.clock
  cache : CacheFresh ws e.tree e.clock e.cache

section Keys
variable {cache : DriftCache Record} {key : LoadedKey}

theorem state_key {loaded : LoadedState} (kept : cache.state = some (key, loaded)) :
    key ∈ cache.keys := by
  simp [DriftCache.keys, kept]

theorem drifts_key {print : Nat} {drifts : List (DomainDrift Record)}
    (kept : cache.drifts = some (key, print, drifts)) : key ∈ cache.keys := by
  simp [DriftCache.keys, kept]

theorem get_some {loaded : LoadedState} (hit : cache.get key = some loaded) :
    cache.state = some (key, loaded) := by
  unfold DriftCache.get at hit
  split at hit
  · rename_i kept
    obtain ⟨rfl, same⟩ := Option.ite_none_right_eq_some.mp hit
    rw [kept, Option.some.inj same]
  · cases hit

theorem get_drifts_some {print : Nat} {drifts : List (DomainDrift Record)}
    (hit : cache.getDrifts key print = some drifts) : cache.drifts = some (key, print, drifts) := by
  unfold DriftCache.getDrifts at hit
  split at hit
  · rename_i kept
    obtain ⟨⟨rfl, rfl⟩, same⟩ := Option.ite_none_right_eq_some.mp hit
    rw [kept, Option.some.inj same]
  · cases hit

end Keys

section Run
variable {ws}

theorem Before.mono {time time' : Nat} {key : LoadedKey} (before : Before time key)
    (later : time ≤ time') : Before time' key :=
  ⟨before.config.trans_le later, before.models.trans_le later, before.migrations.trans_le later⟩

theorem fresh_changed {e : Editor Docs Record} (fresh : Fresh ws e) {time : Nat} {p : Path}
    {tree' : Tree} (later : e.clock < time) (changes : FileTree.Changes time p e.tree tree')
    (unread : ∀ key ∈ e.cache.keys, Current tree' key →
      tree' = e.tree ∨ (¬ Reads ws e.tree key.projectRoot p ∧ Current e.tree key)) :
    Fresh ws { e with tree := tree', clock := time } := by
  refine ⟨fun entry mem => ?_, fun key mem => ?_, fun key loaded kept current => ?_,
    fun key print drifts kept current docs same_print => ?_⟩
  · rcases changes.new_or_old entry mem with new | old
    · exact new.le
    · exact (fresh.past entry old).trans later.le
  · exact (fresh.cache.before key mem).mono (Nat.succ_le_succ later.le)
  · rcases unread key (state_key kept) current with rfl | ⟨unread, current⟩
    · exact fresh.cache.state key loaded kept current
    · exact (state_away changes unread).trans (fresh.cache.state key loaded kept current)
  · rcases unread key (drifts_key kept) current with rfl | ⟨unread, current⟩
    · exact fresh.cache.drifts key print drifts kept current docs same_print
    · obtain ⟨loaded, found, planned⟩ :=
        fresh.cache.drifts key print drifts kept current docs same_print
      exact ⟨loaded, (state_away changes unread).trans found,
        (drifts_away changes unread found docs).trans planned⟩

theorem find_config_file {tree : Tree} {root : Path} {mtime : Nat} : ∀ {start : Path},
    findConfigFrom tree start = some (root, mtime) →
      (FileTree.file tree (configPath root)).map (·.mtime) = some mtime
  | [], found => by
    obtain ⟨e, at_root, same⟩ := Option.map_eq_some_iff.mp found
    obtain ⟨rfl, rfl⟩ := Prod.mk.inj same
    rw [at_root, Option.map_some]
  | name :: parent, found => by
    rw [findConfigFrom] at found
    split at found
    · rename_i e here
      obtain ⟨rfl, rfl⟩ := Prod.mk.inj (Option.some.inj found)
      rw [here, Option.map_some]
    · exact find_config_file found

theorem loaded_key_current {tree : Tree} {start root : Path} {mtime : Nat}
    (found : findConfigAndMtime tree start = some (root, mtime)) :
    Current tree (loadedKey tree root mtime) :=
  ⟨find_config_file found, rfl, rfl⟩

theorem current_before {tree : Tree} {clock : Nat} {key : LoadedKey}
    (past : ∀ e ∈ tree, e.mtime ≤ clock) (current : Current tree key) :
    Before (clock + 1) key := by
  have bounded : ∀ dir, FileTree.newest tree dir ≤ clock := fun dir =>
    FileTree.newest_le_iff.mpr fun e mem _ => past e mem
  obtain ⟨e, found, mtime⟩ := Option.map_eq_some_iff.mp current.config
  obtain ⟨mem, -⟩ := FileTree.file_mem found
  exact ⟨Nat.lt_succ_of_le (mtime ▸ past e mem),
    Nat.lt_succ_of_le (current.models ▸ bounded _),
    Nat.lt_succ_of_le (current.migrations ▸ bounded _)⟩

def uncachedDrifts (ws : Workspace Docs SyntaxTree Record) (tree : Tree) (docs : Docs) :
    List (DomainDrift Record) :=
  match findConfigAndMtime tree ws.workspaceRoot with
  | none => []
  | some (root, _) => ((loadState ws tree root).bind (planDrifts ws tree docs)).getD []

theorem loaded_with_cache {tree : Tree} {clock : Nat} {cache : DriftCache Record}
    (fresh : CacheFresh ws tree clock cache) {key : LoadedKey} (current : Current tree key)
    (before : Before (clock + 1) key) :
    (loadedStateWithCache ws tree key cache).1 = loadState ws tree key.projectRoot ∧
      CacheFresh ws tree clock (loadedStateWithCache ws tree key cache).2 := by
  unfold loadedStateWithCache
  cases hit : cache.get key with
  | some loaded => exact ⟨(fresh.state key loaded (get_some hit) current).symm, fresh⟩
  | none =>
    cases found : loadState ws tree key.projectRoot with
    | none => exact ⟨rfl, fresh⟩
    | some loaded =>
      refine ⟨rfl, fun key' mem => ?_, fun key' loaded' kept _ => ?_, fresh.drifts⟩
      · rcases List.mem_append.mp mem with new | old
        · obtain rfl : key' = key := by simpa using new
          exact before
        · exact fresh.before key' (List.mem_append_right _ old)
      · obtain ⟨rfl, rfl⟩ := Prod.mk.inj (Option.some.inj kept)
        exact found

theorem compute_with_cache {tree : Tree} {clock : Nat} {cache : DriftCache Record} {docs : Docs}
    (identified : ∀ docs', ws.fingerprint docs' = ws.fingerprint docs → docs' = docs)
    (past : ∀ e ∈ tree, e.mtime ≤ clock) (fresh : CacheFresh ws tree clock cache) :
    (computeWithCache ws tree docs cache).1 = uncachedDrifts ws tree docs ∧
      CacheFresh ws tree clock (computeWithCache ws tree docs cache).2 := by
  unfold computeWithCache uncachedDrifts
  cases located : findConfigAndMtime tree ws.workspaceRoot with
  | none => exact ⟨rfl, fresh⟩
  | some found =>
    obtain ⟨root, mtime⟩ := found
    have current := loaded_key_current located
    have before := current_before past current
    simp only
    cases hit : cache.getDrifts (loadedKey tree root mtime) (ws.fingerprint docs) with
    | some drifts =>
      obtain ⟨loaded, found, planned⟩ :=
        fresh.drifts _ _ drifts (get_drifts_some hit) current docs rfl
      refine ⟨?_, fresh⟩
      have found : loadState ws tree root = some loaded := found
      rw [found, Option.bind_some, planned, Option.getD_some]
    | none =>
      obtain ⟨result, still⟩ := loaded_with_cache fresh current before
      cases computed : loadedStateWithCache ws tree (loadedKey tree root mtime) cache with
      | mk state cache' =>
        rw [computed] at result still
        have result : state = loadState ws tree root := result
        rw [← result]
        cases state with
        | none => exact ⟨rfl, still⟩
        | some loaded =>
          simp only [Option.bind_some]
          cases planned : planDrifts ws tree docs loaded with
          | none => exact ⟨rfl, still⟩
          | some drifts =>
            refine ⟨rfl, fun key mem => ?_, still.state, fun key print drifts' kept _ docs' same => ?_⟩
            · rcases List.mem_append.mp mem with old | new
              · exact still.before key (List.mem_append_left _ old)
              · obtain rfl : key = loadedKey tree root mtime := by simpa using new
                exact before
            · obtain ⟨rfl, rest⟩ := Prod.mk.inj (Option.some.inj kept)
              obtain ⟨rfl, rfl⟩ := Prod.mk.inj rest
              obtain rfl := identified docs' same
              exact ⟨loaded, result.symm, planned⟩

theorem fresh_step (identified : ∀ docs docs', ws.fingerprint docs' = ws.fingerprint docs →
      docs' = docs) {e : Editor Docs Record} (fresh : Fresh ws e) {event : Event Docs}
    (noticed : Noticed ws e event) : Fresh ws (e.step ws event) := by
  cases event with
  | write p contents delay =>
    have later : e.clock < e.clock + delay + 1 := by omega
    refine fresh_changed fresh later (FileTree.changes_write contents) fun key mem current => ?_
    exact write_unread (fun entry listed => (fresh.past entry listed).trans_lt later)
      ((fresh.cache.before key mem).mono later) (noticed key mem) current
  | delete p delay =>
    have later : e.clock < e.clock + delay + 1 := by omega
    refine fresh_changed fresh later FileTree.changes_delete fun key mem current => ?_
    exact delete_unread (fun entry listed => (fresh.past entry listed).trans_lt later)
      ((fresh.cache.before key mem).mono later) (noticed key mem) current
  | edit docs => exact ⟨fresh.past, fresh.cache⟩
  | call => exact ⟨fresh.past, (compute_with_cache (identified e.docs) fresh.past fresh.cache).2⟩

/-- Runs in which every change of the project is noticed, or need not be. -/
inductive NoticedRun (ws : Workspace Docs SyntaxTree Record) (start : Editor Docs Record) :
    Editor Docs Record → Prop where
  | refl : NoticedRun ws start start
  | step {e : Editor Docs Record} {event : Event Docs} (run : NoticedRun ws start e)
      (noticed : Noticed ws e event) : NoticedRun ws start (e.step ws event)

/-- In such a run no call returns what it would not return with an empty cache. -/
theorem drifts_never_stale (identified : ∀ docs docs', ws.fingerprint docs' = ws.fingerprint docs →
      docs' = docs) {start e : Editor Docs Record}
    (past : ∀ entry ∈ start.tree, entry.mtime ≤ start.clock) (empty : start.cache = .new)
    (run : NoticedRun ws start e) :
    (computeWithCache ws e.tree e.docs e.cache).1 = (computeWithCache ws e.tree e.docs .new).1 := by
  have new_fresh : ∀ tree clock, CacheFresh ws tree clock .new := fun tree clock =>
    ⟨fun key mem => absurd mem List.not_mem_nil, nofun, nofun⟩
  have fresh : Fresh ws e := by
    induction run with
    | refl => exact ⟨past, empty ▸ new_fresh _ _⟩
    | step _ noticed ih => exact fresh_step identified ih noticed
  rw [(compute_with_cache (identified e.docs) fresh.past fresh.cache).1,
    (compute_with_cache (identified e.docs) fresh.past (new_fresh _ e.clock)).1]

end Run

/-! A model and some notes -/

def modelTable : TableDef :=
  ⟨"user", none, [{ ColumnDef.new "id" (.simple .integer) false with
    primaryKey := some (.bool true) }], []⟩

def configText : String :=
  "\x7b\"modelsDir\":\"models\",\"migrationsDir\":\"migrations\"," ++
    "\"tableNamingCase\":\"snake\",\"columnNamingCase\":\"snake\",\"modelFormat\":\"json\"\x7d"

def userText : String :=
  "\x7b\"name\":\"user\",\"columns\":[\x7b\"name\":\"id\",\"type\":\"integer\"," ++
    "\"nullable\":false,\"primary_key\":true\x7d]\x7d"

def userPath : Path := ["user.json", "models", "project"]

def notesWorkspace : Workspace Unit Unit String where
  workspaceRoot := ["project"]
  readOrder := id
  read_all _ := List.Perm.refl _
  parseConfig contents := if contents = configText then some ⟨"models", "migrations"⟩ else none
  parseModel _ contents := if contents = userText then some modelTable else none
  parsePlan _ _ := none
  lookup tableName := if tableName = "user" then some userPath else none
  fingerprint _ := 0
  withDoc _ _ := none
  parse _ _ := some ()
  actionToDrift action _ _ _ :=
    match action with
    | .createTable table _ _ =>
        some ("Table '" ++ table ++ "' is in the model but not in any applied migration")
    | _ => none

def notesEditor : Editor Unit String where
  tree := [⟨["project"], .directory, 3⟩, ⟨["vespertide.json", "project"], .file configText, 1⟩,
    ⟨["models", "project"], .directory, 3⟩, ⟨userPath, .file userText, 2⟩,
    ⟨["notes.md", "models", "project"], .file "users sign up here", 3⟩]
  clock := 3
  docs := ()
  cache := .new

theorem rewritten_model_noticed :
    let called := notesEditor.step notesWorkspace .call
    let rewritten := called.step notesWorkspace (.write userPath "not json" 0)
    (computeWithCache notesWorkspace rewritten.tree rewritten.docs rewritten.cache).1 =
      (computeWithCache notesWorkspace rewritten.tree rewritten.docs .new).1 := by
  have keys : ∀ key ∈ (notesEditor.step notesWorkspace .call).cache.keys,
      key.projectRoot = ["project"] := by decide +kernel
  refine drifts_never_stale (fun _ _ _ => rfl) (by decide) rfl
    (.step (.step .refl trivial) fun key mem => ?_)
  rw [keys key mem]
  exact .inr (.inl ⟨["models", "project"], List.mem_cons_self, .inl rfl⟩)

/-- The model is deleted, but the notes are as new as they were. -/
theorem deleted_model_stays :
    (∀ entry ∈ notesEditor.tree, entry.mtime ≤ notesEditor.clock) ∧
      notesEditor.cache = .new ∧
      let called := notesEditor.step notesWorkspace .call
      let deleted := called.step notesWorkspace (.delete userPath 0)
      (computeWithCache notesWorkspace deleted.tree deleted.docs deleted.cache).1 =
          [⟨userPath, "Table 'user' is in the model but not in any applied migration"⟩] ∧
        (computeWithCache notesWorkspace deleted.tree deleted.docs .new).1 = [] := by
  refine ⟨by decide, rfl, ?_, ?_⟩
  · decide +kernel
  · decide +kernel

end Vespertide
