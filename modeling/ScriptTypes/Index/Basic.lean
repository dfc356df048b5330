import ScriptTypes.Index.Element
import ScriptTypes.Index.Entries

/-!
# The index of a project

The index holds what is known outside a script: types with their parents and members, globals, and
which documents define which modules. All tables list their words in the order of their arrival.
-/

namespace ScriptTypes

structure TypeRecord where
  parents : List TypeName := []
  members : Entries (List Element) := []
  documents : List String := []

structure Index where
  /-- The directory that the index covers. -/
  root : Option String := none
  globals : Entries (List Element) := []
  types : Entries TypeRecord := []
  /-- The documents that define a module, under the module's word. -/
  modules : Entries (List String) := []

namespace Index

/-- The type whose members the globals are. -/
def window : TypeName := "Window"

def empty : Index := {}

def setRoot (index : Index) (root : String) : Index := { index with root := some root }

/-- Change the record of a type, which is declared if it is new. -/
def updateType (index : Index) (name : TypeName) (f : TypeRecord → TypeRecord) : Index :=
  { index with types := Entries.upsert name (fun r? => f (r?.getD {})) index.types }

/-- Names followed by those of others that are not among them yet. -/
def addMissing (names others : List TypeName) : List TypeName :=
  others.foldl (fun ns n => if ns.contains n then ns else ns ++ [n]) names

/-- Declare a type. Parents it has already are not repeated. -/
def addType (index : Index) (name : TypeName) (parents : List TypeName) : Index :=
  index.updateType name fun r => { r with parents := addMissing r.parents parents }

def addTypeDocument (index : Index) (name : TypeName) (document : String) : Index :=
  index.updateType name fun r => { r with documents := r.documents ++ [document] }

/-- Append an element to those of its name. -/
def appendElement (e : Element) (table : Entries (List Element)) : Entries (List Element) :=
  Entries.upsert e.name (fun es? => es?.getD [] ++ [e]) table

/-- Add a member to its owner, which is declared if it is new. -/
def addMember (index : Index) (e : Element) : Index :=
  index.updateType e.owner fun r => { r with members := appendElement e r.members }

/-- Add a global, which is a member of the window as well. -/
def addGlobal (index : Index) (e : Element) : Index :=
  let e := { e with owner := window }
  addMember { index with globals := appendElement e index.globals } e

/-- Record that a document defines the module of a word. -/
def addModule (index : Index) (word document : String) : Index :=
  { index with modules :=
      Entries.upsert word (fun ds? => ds?.getD [] ++ [document]) index.modules }

/-- Add a type of another index. Its members that are globals came in with the globals. -/
def mergeType (index : Index) : String × TypeRecord → Index
  | (name, r) =>
    let index := index.addType name r.parents
    let index := r.documents.foldl (fun i d => i.addTypeDocument name d) index
    ((r.members.flatMap Prod.snd).filter (·.owner != window)).foldl addMember index

/-- Fold another index into this one; its root wins if it has one. -/
def merge (index other : Index) : Index :=
  let index := { index with root := other.root.or index.root }
  let index := (other.globals.flatMap Prod.snd).foldl addGlobal index
  let index := other.types.foldl mergeType index
  other.modules.foldl (fun i (word, ds) => ds.foldl (fun i d => i.addModule word d) i) index

/-! ### Questions to the tables -/

def record (index : Index) (name : TypeName) : TypeRecord := (Entries.get? name index.types).getD {}

def hasType (index : Index) (name : TypeName) : Bool := Entries.contains name index.types

def parents (index : Index) (name : TypeName) : List TypeName := (index.record name).parents

/-- The members of a name that a type declares itself. -/
def ownMembers (index : Index) (type : TypeName) (member : String) : List Element :=
  (Entries.get? member (index.record type).members).getD []

/-- The last part of a document's address. -/
def documentFile (document : String) : String :=
  String.ofList (document.toList.reverse.takeWhile (· != '/')).reverse

/-- The globals of a name; those declared in a file of the given name come first. -/
def globalsFor (index : Index) (file name : String) : List Element :=
  let all := (Entries.get? name index.globals).getD []
  let (here, elsewhere) := all.partition fun e => e.documents.any (documentFile · == file)
  here ++ elsewhere

/-- The address of a file. -/
def fileAddress (path : String) : String := "file://" ++ path

/-- The type of what the module in the file at `path` exports. -/
def moduleType? (index : Index) (path : String) : Option TypeName :=
  (index.modules.find? fun (_, ds) => ds.contains (fileAddress path)).map fun (word, _) =>
    word ++ ".exports"

end Index

end ScriptTypes
