import ScriptTypes.Toml.Document
import ScriptTypes.Toml.Record

/-!
# The configuration of a project

A configuration names index files, the root of the project, and types to rename. It has no other
keys.
-/

namespace ScriptTypes

structure Config where
  /-- Index files, as seen from the configuration's directory. -/
  indexes : List String := []
  /-- The root, as seen from the configuration's directory. -/
  root : Option String := none
  /-- Types with their new names. -/
  renames : List (String × String) := []
  deriving DecidableEq, Repr

namespace Config

/-- The name of configuration files. -/
def fileName : String := "jsinfer.toml"

def keys : List String := ["index", "root", "type_map"]

/-- Read a value that may be left out. -/
def optional {α : Type} (t : Toml.Table) (key : String) (read : Toml.Value → Option α) :
    Option (Option α) :=
  match Toml.Table.get? t key with
  | some v => some <$> read v
  | none => some none

def ofTable? (t : Toml.Table) : Option Config := do
  guard (t.all fun e => keys.contains e.1)
  return {
    indexes := (← optional t "index" Toml.Value.strings?).getD []
    root := ← optional t "root" Toml.Value.string?
    renames := (← optional t "type_map" Toml.Value.stringTable?).getD [] }

/-- The configuration that a text describes, if it does. -/
def parse? (text : String) : Option Config := (Toml.parse? text).bind ofTable?

end Config

end ScriptTypes
