import ScriptTypes.Files.Access
import ScriptTypes.Project.Config
import ScriptTypes.Project.IndexFile
import ScriptTypes.TypeName.Renaming

/-!
# Loading a project

The project of a script is its index and its renaming of types. They come from a configuration,
which is given or the nearest one above the script, and from further index files.
-/

namespace ScriptTypes

/-- Why a project cannot be loaded. -/
inductive ProjectError where
  | configRead (path : Path)
  | configParse (path : Path)
  | indexRead (path : Path)
  | indexParse (path : Path)
  deriving DecidableEq, Repr

def ProjectError.message : ProjectError → String
  | .configRead path => "failed to read config " ++ path
  | .configParse path => "invalid config " ++ path
  | .indexRead path => "failed to read index file " ++ path
  | .indexParse path => "invalid index file " ++ path

structure Project where
  index : Index := .empty
  renames : TypeRenaming := .empty

namespace Project

variable {m : Type → Type} [Monad m] (files : Files m)

/-- Loading may fail. -/
abbrev Loading (m : Type → Type) := ExceptT ProjectError m

/-- The configuration files to look for above a script, nearest first. -/
def configCandidates (file : Path) : List Path :=
  match Path.parent? file with
  | some dir => (Path.ancestors dir).map (Path.join · Config.fileName)
  | none => []

def loadConfig (path : Path) : Loading m Config := do
  match ← files.readText path with
  | .error _ => throw (.configRead path)
  | .ok text =>
    match Config.parse? text with
    | none => throw (.configParse path)
    | some config => return config

/-- The index of the file at a path. Its documents are named by the file's canonical path. -/
def loadIndex (path : Path) : Loading m Index := do
  match ← files.canonical path with
  | .error _ => throw (.indexRead path)
  | .ok canonical =>
    match ← files.readText canonical with
    | .error _ => throw (.indexRead path)
    | .ok text =>
      match IndexFile.parse? text with
      | none => throw (.indexParse path)
      | some file => return file.index canonical

/-- Merge index files into an index, one after the other. -/
def mergeIndexes (index : Index) : List Path → Loading m Index
  | [] => return index
  | p :: ps => do mergeIndexes (index.merge (← loadIndex files p)) ps

/-- The project of the configuration at a path. -/
def ofConfig (path : Path) : Loading m Project := do
  let config ← loadConfig files path
  let dir := (Path.parent? path).getD "."
  let index ← mergeIndexes files .empty (config.indexes.map (Path.join dir))
  let root := match config.root with
    | some root => Path.join dir root
    | none => dir
  return { index := index.setRoot root, renames := TypeRenaming.ofList config.renames }

/-- The project of a script, with further index files. -/
def load (config : Option Path) (indexes : List Path) (file : Path) : Loading m Project := do
  let config ← match config with
    | some path => pure (some path)
    | none => files.find? (configCandidates file)
  let project ← match config with
    | some path => ofConfig files path
    | none => pure {}
  return { project with index := ← mergeIndexes files project.index indexes }

end Project

end ScriptTypes
