import Vespertide.Ordering
import Vespertide.Support.FileTree

/-!
Drift between the models and the applied migrations, as the editor shows it. The
loaded project and the drifts are kept between calls, under the times at which
the configuration and the two directories last changed. Parsers, the workspace
index and the anchoring of a drift in a syntax tree are parameters; a URI is the
path it stands for.
-/
namespace Vespertide
open FileTree (Path Tree)

structure VespertideConfig where
  modelsDir : String
  migrationsDir : String
  deriving DecidableEq

/-! Paths -/

def pushComponent (p : Path) (component : String) : Path :=
  if component = "" ∨ component = "." then p
  else if component = ".." then p.tail
  else component :: p

/-- `Path::join`: an absolute path replaces the base. -/
def joinPath (base : Path) (s : String) : Path :=
  ((s.toList.splitOn '/').map String.ofList).foldl pushComponent
    (if s.toList.head? = some '/' then [] else base)

/-- The name up to its last dot, and what follows it. A dot at the start is part of the name. -/
def splitExtension (name : String) : String × Option String :=
  let ext := (name.toList.reverse.takeWhile (· ≠ '.')).reverse
  let stem := name.toList.take (name.length - ext.length - 1)
  if ext.length = name.length ∨ stem = [] then (name, none)
  else (String.ofList stem, some (String.ofList ext))

def setExtension (ext : String) : Path → Path
  | [] => []
  | name :: parent => ((splitExtension name).1 ++ "." ++ ext) :: parent

def hasSupportedExtension : Path → Bool
  | [] => false
  | name :: _ => (splitExtension name).2 ∈ [some "json", some "yaml", some "yml"]

def configPath (root : Path) : Path := "vespertide.json" :: root

/-! The workspace -/

structure Workspace (Docs SyntaxTree Record : Type) where
  workspaceRoot : Path
  /-- The order in which the directories list what is under them. -/
  readOrder : List Path → List Path
  read_all : ∀ paths, (readOrder paths).Perm paths
  parseConfig : String → Option VespertideConfig
  parseModel : Path → String → Option TableDef
  parsePlan : Path → String → Option MigrationPlan
  lookup : String → Option Path
  fingerprint : Docs → Nat
  withDoc : Docs → Path → Option (String × Option SyntaxTree)
  parse : Path → String → Option SyntaxTree
  actionToDrift : MigrationAction → Schema → String → Option SyntaxTree → Option Record

structure LoadedState where
  config : VespertideConfig
  currentModels : Schema
  baseline : Schema
  modelsDir : Path

structure DomainDrift (Record : Type) where
  uri : Path
  record : Record
  deriving DecidableEq

section Load
variable {Docs SyntaxTree Record : Type} (ws : Workspace Docs SyntaxTree Record) (tree : Tree)

def readToString (p : Path) : Option String := (FileTree.file tree p).map (·.contents)

def pathExists (p : Path) : Bool := (FileTree.find tree p).isSome

/-- The nearest directory, upwards, that has a configuration. -/
def findConfigFrom : Path → Option (Path × Nat)
  | [] => (FileTree.file tree (configPath [])).map fun e => ([], e.mtime)
  | name :: parent =>
      match FileTree.file tree (configPath (name :: parent)) with
      | some e => some (name :: parent, e.mtime)
      | none => findConfigFrom parent

def findConfigAndMtime (start : Path) : Option (Path × Nat) :=
  findConfigFrom tree (if (FileTree.file tree start).isSome then start.tail else start)

def loadConfig (root : Path) : Option VespertideConfig :=
  (readToString tree (configPath root)).bind ws.parseConfig

def isModelPath (dir p : Path) : Bool := dir <:+ p ∧ p ≠ dir ∧ hasSupportedExtension p

def isMigrationPath (dir p : Path) : Bool := FileTree.isEntryOf dir p && hasSupportedExtension p

/-- A directory that is missing holds nothing, a file is no directory. -/
def collectPaths (dir : Path) (collects : Path → Bool) : Option (List Path) :=
  if (FileTree.file tree dir).isSome then none
  else some (ws.readOrder (((FileTree.files tree).filter fun e => collects e.path).map (·.path)))

def loadFiles {α : Type} (dir : Path) (collects : Path → Bool) (load : Path → Option α) :
    Option (List α) := (collectPaths ws tree dir collects).bind (·.mapM load)

def loadModelFile (p : Path) : Option TableDef := do
  let contents ← readToString tree p
  let table ← ws.parseModel p contents
  table.validateUniqueColumnNames.toOption
  table.normalize.toOption

def loadMigrationFile (p : Path) : Option MigrationPlan := do
  let contents ← readToString tree p
  ws.parsePlan p contents

def loadModelsFromDir (root : Path) : Option (List TableDef) := do
  let config ← loadConfig ws tree root
  let dir := joinPath root config.modelsDir
  loadFiles ws tree dir (isModelPath dir) (loadModelFile ws tree)

def loadMigrationsFromDir (root : Path) : Option (List MigrationPlan) := do
  let config ← loadConfig ws tree root
  let dir := joinPath root config.migrationsDir
  let plans ← loadFiles ws tree dir (isMigrationPath dir) (loadMigrationFile ws tree)
  return plans.insertionSort fun a b => a.version ≤ b.version

def loadState (root : Path) : Option LoadedState := do
  let config ← loadConfig ws tree root
  let currentModels ← loadModelsFromDir ws tree root
  let appliedPlans ← loadMigrationsFromDir ws tree root
  let baseline ← (schemaFromPlans appliedPlans).toOption
  return { config, currentModels, baseline, modelsDir := joinPath root config.modelsDir }

/-! The drifts -/

def guessUri (modelsDir : Path) (tableName : String) : Option Path :=
  (["json", "yaml", "yml"].map (setExtension · (joinPath modelsDir tableName))).find?
    (pathExists tree)

def tableUri (modelsDir : Path) (tableName : String) : Option Path :=
  match ws.lookup tableName with
  | some uri => some uri
  | none => guessUri tree modelsDir tableName

def sourceAndTree (docs : Docs) (uri : Path) : Option (String × Option SyntaxTree) :=
  ws.withDoc docs uri <|> (readToString tree uri).map fun source => (source, ws.parse uri source)

def actionDrift (docs : Docs) (loaded : LoadedState) (action : MigrationAction) :
    Option (DomainDrift Record) := do
  let tableName ← action.tableName
  let uri ← tableUri ws tree loaded.modelsDir tableName
  let (source, syntaxTree) ← sourceAndTree ws tree docs uri
  let record ← ws.actionToDrift action loaded.baseline source syntaxTree
  return ⟨uri, record⟩

def planDrifts (docs : Docs) (loaded : LoadedState) : Option (List (DomainDrift Record)) :=
  match diffSchemas loaded.baseline loaded.currentModels with
  | .error _ => none
  | .ok plan => some (plan.actions.filterMap (actionDrift ws tree docs loaded))

end Load

/-! The caches -/

structure LoadedKey where
  projectRoot : Path
  configMtime : Nat
  maxModelMtime : Nat
  maxMigrationMtime : Nat
  deriving DecidableEq

structure DriftCache (Record : Type) where
  state : Option (LoadedKey × LoadedState)
  drifts : Option (LoadedKey × Nat × List (DomainDrift Record))

section Compute
variable {Docs SyntaxTree Record : Type}

def DriftCache.new : DriftCache Record := ⟨none, none⟩

def DriftCache.get (cache : DriftCache Record) (key : LoadedKey) : Option LoadedState :=
  match cache.state with
  | some (cached, loaded) => if cached = key then some loaded else none
  | none => none

def DriftCache.getDrifts (cache : DriftCache Record) (key : LoadedKey) (fingerprint : Nat) :
    Option (List (DomainDrift Record)) :=
  match cache.drifts with
  | some (cached, print, drifts) =>
      if cached = key ∧ print = fingerprint then some drifts else none
  | none => none

variable (ws : Workspace Docs SyntaxTree Record) (tree : Tree)

/-- The directories whose times make the key have fixed names. -/
def loadedKey (root : Path) (configMtime : Nat) : LoadedKey where
  projectRoot := root
  configMtime := configMtime
  maxModelMtime := FileTree.newest tree ("models" :: root)
  maxMigrationMtime := FileTree.newest tree ("migrations" :: root)

def loadedStateWithCache (key : LoadedKey) (cache : DriftCache Record) :
    Option LoadedState × DriftCache Record :=
  match cache.get key with
  | some hit => (some hit, cache)
  | none =>
      match loadState ws tree key.projectRoot with
      | none => (none, cache)
      | some loaded => (some loaded, { cache with state := some (key, loaded) })

def computeWithCache (docs : Docs) (cache : DriftCache Record) :
    List (DomainDrift Record) × DriftCache Record :=
  match findConfigAndMtime tree ws.workspaceRoot with
  | none => ([], cache)
  | some (root, configMtime) =>
      let key := loadedKey tree root configMtime
      match cache.getDrifts key (ws.fingerprint docs) with
      | some drifts => (drifts, cache)
      | none =>
          match loadedStateWithCache ws tree key cache with
          | (none, cache) => ([], cache)
          | (some loaded, cache) =>
              match planDrifts ws tree docs loaded with
              | none => ([], cache)
              | some drifts =>
                  (drifts, { cache with drifts := some (key, ws.fingerprint docs, drifts) })

end Compute

end Vespertide
