import ScriptTypes.Files.Access
import ScriptTypes.Inference.Context
import ScriptTypes.Inference.Location

/-!
# Workspaces

A workspace holds the scripts that were opened, each under its path. Two paths with the same parts
are the same script. A script is read from the file system once; from then on the workspace's own
contents count, which may be replaced.
-/

namespace ScriptTypes

open Script (Module ParseError)

structure SourceFile where
  path : Path
  contents : String
  deriving DecidableEq, Repr

/-- The scripts in the order in which they were opened. -/
structure Workspace where
  sources : List SourceFile := []

/-- The position of a script in its workspace. -/
abbrev SourceId := Nat

namespace Workspace

def empty : Workspace := {}

/-- The script at a path. -/
def find? (w : Workspace) (p : Path) : Option SourceId :=
  w.sources.findIdx? fun f => Path.parts f.path == Path.parts p

/-- Open a new script. -/
def add (w : Workspace) (f : SourceFile) : Workspace × SourceId :=
  ({ sources := w.sources ++ [f] }, w.sources.length)

/-- Give the script at a path new contents; it is opened if it is new. -/
def setContents (w : Workspace) (p : Path) (contents : String) : Workspace × SourceId :=
  match w.find? p with
  | some id => ({ sources := w.sources.modify id fun f => { f with contents } }, id)
  | none => w.add { path := p, contents }

/-- Open the script in a file, under its canonical path. -/
def read {m : Type → Type} [Monad m] (files : Files m) (w : Workspace) (p : Path) :
    ExceptT FileError m (Workspace × SourceId) := do
  let path ← ExceptT.mk (files.canonical p)
  match w.find? path with
  | some id => return (w, id)
  | none => return w.add { path, contents := ← ExceptT.mk (files.readText path) }

def source? (w : Workspace) (id : SourceId) : Option SourceFile := w.sources[id]?

end Workspace

namespace SourceFile

def module (f : SourceFile) : Except ParseError Module := Module.ofSource f.contents

/-- The types at an offset of a script. -/
def typesAt (isFile : Path → Bool) (index : Index) (renames : TypeRenaming) (f : SourceFile)
    (offset : Nat) : Except ParseError (List TypeName) := do
  let s := Setting.withFiles isFile (← f.module) index renames f.path
  return ((Inference.inferAt s offset).run []).1

end SourceFile

end ScriptTypes
