import ScriptTypes.Index.Basic
import ScriptTypes.Path
import ScriptTypes.Toml.Document
import ScriptTypes.Toml.Record

/-!
# Index files

An index file declares globals, types with their members, and modules. Its names of types are made
canonical, and those that denote no type are left out. Keys it does not know are ignored.
-/

namespace ScriptTypes

/-- A declared parameter. -/
structure ParameterEntry where
  name : String
  types : List String
  deriving DecidableEq, Repr

/-- A declared global or member. -/
structure ElementEntry where
  name : String
  types : List String
  parameters : Option (List ParameterEntry)
  returns : List String
  deriving DecidableEq, Repr

structure TypeEntry where
  name : String
  parents : List String
  members : List ElementEntry
  deriving DecidableEq, Repr

structure ModuleEntry where
  name : String
  /-- The file of the module, as seen from the index file's directory. -/
  file : String
  deriving DecidableEq, Repr

structure IndexFile where
  globals : List ElementEntry := []
  types : List TypeEntry := []
  modules : List ModuleEntry := []
  deriving DecidableEq, Repr

open Toml (Record)

def ParameterEntry.ofValue? (v : Toml.Value) : Option ParameterEntry := do
  let r ← Record.ofValue? v
  return { name := ← r.string? "name" 0, types := ← r.strings? "types" 1 }

def ElementEntry.ofValue? (v : Toml.Value) : Option ElementEntry := do
  let r ← Record.ofValue? v
  return {
    name := ← r.string? "name" 0
    types := ← r.strings? "types" 1
    parameters := ← r.optionalList? ParameterEntry.ofValue? "params" 2
    returns := ← r.strings? "returns" 3 }

def TypeEntry.ofValue? (v : Toml.Value) : Option TypeEntry := do
  let r ← Record.ofValue? v
  return {
    name := ← r.string? "name" 0
    parents := ← r.strings? "parents" 1
    members := ← r.list? ElementEntry.ofValue? "member" 2 }

def ModuleEntry.ofValue? (v : Toml.Value) : Option ModuleEntry := do
  let r ← Record.ofValue? v
  return { name := ← r.string? "name" 0, file := ← r.string? "file" 1 }

/-- Those of some names that denote types, in canonical form. -/
def canonicalTypes (names : List String) : List TypeName := names.filterMap canonicalTypeName?

/-- The element that an entry declares in a document. An entry with parameters or return types
declares a function. -/
def ElementEntry.element (e : ElementEntry) (owner : TypeName) (document : String) : Element :=
  { name := e.name
    owner
    types := canonicalTypes e.types
    documents := [document]
    signature :=
      if e.parameters.isNone && e.returns.isEmpty then none
      else some {
        parameters := (e.parameters.getD []).map fun p =>
          { name := p.name, types := canonicalTypes p.types }
        returns := canonicalTypes e.returns } }

namespace IndexFile

def ofTable? (t : Toml.Table) : Option IndexFile := do
  let r := Record.named t
  return {
    globals := ← r.list? ElementEntry.ofValue? "global" 0
    types := ← r.list? TypeEntry.ofValue? "type" 1
    modules := ← r.list? ModuleEntry.ofValue? "module" 2 }

/-- The index file that a text describes, if it does. -/
def parse? (text : String) : Option IndexFile := (Toml.parse? text).bind ofTable?

/-- Add a declared type. One whose name denotes no type is left out with its members. -/
def addType (document : String) (index : Index) (t : TypeEntry) : Index :=
  match canonicalTypeName? t.name with
  | none => index
  | some name =>
    let index := index.addType name (canonicalTypes t.parents)
    let index := index.addTypeDocument name document
    t.members.foldl (fun i e => i.addMember (e.element name document)) index

/-- The index of a file at a path. -/
def index (f : IndexFile) (path : Path) : Index :=
  let document := Index.fileAddress path
  let dir := (Path.parent? path).getD "."
  let index := f.globals.foldl (fun i e => i.addGlobal (e.element "" document)) Index.empty
  let index := f.types.foldl (addType document) index
  f.modules.foldl (fun i m => i.addModule m.name (Index.fileAddress (Path.join dir m.file))) index

end IndexFile

end ScriptTypes
