import ScriptTypes.Files.Access

/-!
# Trees of files

A tree of files holds the content of files under their places. A directory is there if it is
listed, or if anything is below it. Walking a path goes through directories only.
-/

namespace ScriptTypes

/-- The names on the way from the root. -/
abbrev Place := List (List Char)

inductive FileNode where
  | file (content : ByteArray)
  | directory

structure FileTree where
  /-- What is at a place; the entry in front wins. -/
  entries : List (Place × FileNode) := []
  /-- Where relative paths start. -/
  workingDirectory : Place := []

namespace FileTree

/-- What is at a place. -/
def node? (t : FileTree) (place : Place) : Option FileNode :=
  match t.entries.lookup place with
  | some node => some node
  | none =>
    if place.isEmpty || t.entries.any fun (p, _) => place.isPrefixOf p then some .directory
    else none

/-- Follow the texts between slashes from a place on. Each of them, even one that stands for no
part, needs a directory to be looked up in. -/
def walk (t : FileTree) (place : Place) : List (List Char) → Except FileError Place
  | [] => .ok place
  | piece :: rest =>
    match t.node? place with
    | none => .error .notFound
    | some (.file _) => .error .notADirectory
    | some .directory =>
      match Path.part? piece with
      | some (.name text) =>
        if (t.node? (place ++ [text])).isSome then walk t (place ++ [text]) rest
        else .error .notFound
      | some .up => walk t place.dropLast rest
      | _ => walk t place rest

/-- The place that a path leads to. -/
def locate (t : FileTree) (p : Path) : Except FileError Place :=
  match p.toList with
  | [] => .error .notFound
  | '/' :: cs => t.walk [] (Path.pieces cs)
  | cs => t.walk t.workingDirectory (Path.pieces cs)

/-- The absolute path of a place. -/
def pathOf (place : Place) : Path := Path.ofParts (.root :: place.map .name)

/-- The place that the names in a path make up. -/
def placeOf (p : Path) : Place :=
  (Path.parts p).filterMap fun
    | .name text => some text
    | _ => none

/-- Put a node at a path. -/
def write (t : FileTree) (p : Path) (node : FileNode) : FileTree :=
  { t with entries := (placeOf p, node) :: t.entries }

def isFile (t : FileTree) (p : Path) : Bool :=
  match t.locate p with
  | .ok place =>
    match t.node? place with
    | some (.file _) => true
    | _ => false
  | .error _ => false

def canonical (t : FileTree) (p : Path) : Except FileError Path := do
  return pathOf (← t.locate p)

def readText (t : FileTree) (p : Path) : Except FileError String := do
  match t.node? (← t.locate p) with
  | none => throw .notFound
  | some .directory => throw .isADirectory
  | some (.file content) =>
    match String.fromUTF8? content with
    | some text => return text
    | none => throw .invalidData

/-- A tree as a file system. -/
def files (t : FileTree) : Files Id where
  isFile := t.isFile
  canonical := t.canonical
  readText := t.readText

end FileTree

end ScriptTypes
