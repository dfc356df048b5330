import ScriptTypes.Inference.Setting
import ScriptTypes.Require

/-!
# Scripts at a location

Where a script is gives its generated types their names, decides which globals come first, and
where the modules that it requires are looked for.
-/

namespace ScriptTypes

open Script (Module)

namespace Require

/-- The file of a module id that the script at `location` requires. -/
def resolver (isFile : Path → Bool) (location : Path) (root : Option Path) (id : String) :
    Option Path :=
  (resolve isFile id (directoryOf location) root).toOption

end Require

/-- The setting of a script at a location. -/
def Setting.ofModule (m : Module) (index : Index) (renames : TypeRenaming) (location : Path)
    (resolve : String → Option Path) : Setting where
  module := m
  scopes := Scopes.ofModule m
  index
  renames
  fileName := Path.fileName location
  fileStem := Path.fileStem location
  resolve

/-- The setting of a script whose modules are found by looking for files. -/
def Setting.withFiles (isFile : Path → Bool) (m : Module) (index : Index) (renames : TypeRenaming)
    (location : Path) : Setting :=
  .ofModule m index renames location (Require.resolver isFile location index.root)

end ScriptTypes
