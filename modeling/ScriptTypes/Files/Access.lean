import ScriptTypes.Path

/-!
# Access to files

What the program asks of a file system, in a monad of its own: the identity for a tree of files in
memory, `IO` for the files of the machine.
-/

namespace ScriptTypes

/-- Why a file cannot be read. -/
inductive FileError where
  | notFound
  | notADirectory
  | isADirectory
  /-- The content is not the encoding of a text. -/
  | invalidData
  deriving DecidableEq, Repr

structure Files (m : Type → Type) where
  /-- Is there a file, and no directory, at a path? -/
  isFile : Path → m Bool
  /-- The absolute path of what is at a path. -/
  canonical : Path → m (Except FileError Path)
  readText : Path → m (Except FileError String)

/-- The first of some paths at which there is a file. -/
def Files.find? {m : Type → Type} [Monad m] (files : Files m) : List Path → m (Option Path)
  | [] => return none
  | p :: ps => do
    if ← files.isFile p then return some p
    files.find? ps

end ScriptTypes
