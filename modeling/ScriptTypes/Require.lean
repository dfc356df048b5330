import ScriptTypes.Path

/-!
# Modules that a script requires

A module id is the argument of `require`. Ids that start with a dot and a slash, two dots and a
slash, or a slash are paths as seen from the directory of the script. All others are looked for in
the `node_modules` directories of that directory and of those above it, up to the root of the
project. What is there decides: the file itself, or with one of two extensions, or the index of a
directory.
-/

namespace ScriptTypes.Require

/-- Why no file was found for a module id. -/
inductive ResolveError where
  | emptyId
  | notFound (id : String) (dir : Path)
  | notInstalled (id : String) (dir : Path)
  deriving DecidableEq, Repr

def ResolveError.message : ResolveError → String
  | .emptyId => "empty module id"
  | .notFound id dir => "no file or directory module \x60" ++ id ++ "\x60 relative to " ++ dir
  | .notInstalled id dir =>
    "\x60" ++ id ++ "\x60 is not installed in any node_modules above " ++ dir

/-- The files that the module at a path may be in, best first. -/
def moduleFiles (p : Path) : List Path :=
  [p, p ++ ".js", p ++ ".json", Path.join p "index.js"]

/-- Is an id a path? -/
def isPathId (id : String) : Bool :=
  id.startsWith "./" || id.startsWith "../" || id.startsWith "/"

/-- The directories to search from `dir` on, upward and up to `root`, all in normal form. -/
def searchDirs (dir : Path) (root : Option Path) : List Path :=
  let above := Path.ancestors (Path.normalize dir)
  match root.map Path.normalize with
  | some root =>
    let (below, rest) := above.span (· != root)
    below ++ rest.take 1
  | none => above

/-- The path of an id in the modules installed in a directory. -/
def installedPath (id : String) (dir : Path) : Path :=
  Path.normalize (Path.join (Path.join dir "node_modules") id)

/-- The files that a module id may refer to, best first. -/
def candidates (id : String) (dir : Path) (root : Option Path) : List Path :=
  if isPathId id then moduleFiles (Path.normalize (Path.join dir id))
  else (searchDirs dir root).flatMap fun d => moduleFiles (installedPath id d)

/-- The file of a module id required in a directory. -/
def resolve (isFile : Path → Bool) (id : String) (dir : Path) (root : Option Path) :
    Except ResolveError Path :=
  if id.isEmpty then .error .emptyId
  else
    match (candidates id dir root).find? isFile with
    | some file => .ok file
    | none => .error (if isPathId id then .notFound id dir else .notInstalled id dir)

/-- The directory in which a script's module ids are looked up. -/
def directoryOf (location : Path) : Path := (Path.parent? location).getD "/"

end ScriptTypes.Require
