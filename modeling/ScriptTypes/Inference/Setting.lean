import ScriptTypes.Inference.Registry
import ScriptTypes.Scope.Table
import ScriptTypes.Script.Values
import ScriptTypes.TypeName.List
import ScriptTypes.TypeName.Renaming

/-!
# What inference works with

A setting holds all that inference reads and never changes: the module with its scopes, the index,
the renaming of types, the file's name, and which file a required module is in.
-/

namespace ScriptTypes

open Script (Module NodeId)

structure Setting where
  module : Module
  scopes : Scopes
  index : Index
  renames : TypeRenaming := .empty
  fileName : String
  /-- The file's name without its extension, which generated types start with. -/
  fileStem : String
  /-- The file that a module id refers to. -/
  resolve : String → Option String := fun _ => none

/-- A name together with the scope that declares it. -/
abbrev Symbol := ScopeId × String

instance : LawfulBEq Symbol := inferInstance

/-- Where a collection was found, which gives its generated type a name. -/
inductive Origin where
  /-- An object literal that starts at an offset. -/
  | literal (offset : Nat)
  /-- A symbol of the scope that starts at an offset. -/
  | scope (offset : Nat)
  deriving DecidableEq, Repr

namespace Setting

variable (s : Setting)

/-- All symbols of the module. -/
def symbols : List Symbol :=
  s.scopes.ids.flatMap fun id => (s.scopes.get id).symbols.map fun (name, _) => (id, name)

/-- A name that means a symbol in some scope is among the symbols. -/
theorem mem_symbols {scope owner : ScopeId} {name : String} {c : Collection}
    (h : s.scopes.symbol? scope name = some (owner, c)) : (owner, name) ∈ s.symbols := by
  obtain ⟨a, _, ha⟩ := List.exists_of_findSome?_eq_some h
  obtain ⟨c', hc, heq⟩ := Option.map_eq_some_iff.1 ha
  obtain ⟨rfl, rfl⟩ := Prod.mk.inj heq
  have hmem := NameMap.mem_of_get?_eq_some hc
  have hlt := s.scopes.lt_of_mem_symbols hmem
  simp only [symbols, List.mem_flatMap, List.mem_map, Scopes.ids, List.mem_range]
  exact ⟨a, hlt, (name, c'), hmem, rfl⟩

/-- The parent of a node if it lists parameters. -/
def parameterList? (n : NodeId) : Option NodeId :=
  (s.module.parent? n).filter fun p =>
    match s.module.form p with
    | .parameters _ => true
    | _ => false

/-- The scope in which the names at a node are looked up. A parameter belongs to the scope of its
function, although it stands in front of the body. -/
def scopeOf (n : NodeId) : ScopeId :=
  let ofParameter := do
    let function ← s.module.parent? (← s.parameterList? n)
    s.scopes.ofFunction? function
  ofParameter.getD (s.scopes.atOffset (s.module.range n).start)

/-- The globals of a name. -/
def globals (name : String) : List Element := s.index.globalsFor s.fileName name

/-- The documented types of the parameter at a position, if the tag there is for its name. -/
def documentedTypes (docs : Option Doc.Block) (position : Nat) (name : String) : List TypeName :=
  match docs.bind (·.paramAt? position) with
  | some p => if p.name = name then p.types.map s.renames.apply else []
  | none => []

/-- The types of a parameter: as documented, else any object. -/
def parameterTypes (docs : Option Doc.Block) (position : Nat) (name : String) : List TypeName :=
  match s.documentedTypes docs position name with
  | [] => [TypeName.objectType]
  | types => types

/-- The parameters of a function. -/
def parameters (params : NodeId) (docs : Option Doc.Block) : List Parameter :=
  match s.module.form params with
  | .parameters items => items.zipIdx.filterMap fun (item, position) =>
      (s.module.identifier? item).map fun name =>
        { name, types := s.parameterTypes docs position name }
  | _ => []

/-- The types of an identifier in a list of parameters. -/
def parameterNodeTypes (n params : NodeId) (name : String) : List TypeName :=
  let docs := (s.module.parent? params).bind s.module.docs?
  s.parameterTypes docs ((s.module.childIndex? n).getD 0) name

/-- The types that documentation declares for a value, if a declaration gives it to a name. -/
def declaredTypes (value : NodeId) : List TypeName :=
  match s.module.parent? value with
  | some p =>
    match s.module.form p with
    | .declaration _ (some docs) _ => docs.declaredTypes
    | _ => []
  | none => []

/-- The type of a function that documents what it returns. -/
def documentedFunction? (n : NodeId) : Option TypeName :=
  match s.module.form n with
  | .function _ (some docs) _ _ =>
    if docs.hasResult then some (TypeName.functionType docs.resultTypes) else none
  | _ => none

/-- The signature of a symbol whose first value is a function. The return types come from all of
its types that are functions. -/
def signature? (values : List NodeId) (types : TypeList) : Option Signature :=
  match values with
  | first :: _ =>
    match s.module.form first with
    | .function _ docs params _ =>
      let functions := types.names.filter TypeName.isFunctionType
      some {
        parameters := s.parameters params docs
        returns := (TypeList.ofList (functions.flatMap TypeName.functionReturnTypes)).names }
    | _ => none
  | [] => none

/-- The name of the type generated for a collection. -/
def generatedName (origin : Origin) (path : String) : TypeName :=
  let raw := match origin with
    | .literal offset =>
      if path.isEmpty then s.fileStem ++ "$" ++ toString offset
      else s.fileStem ++ "$" ++ toString offset ++ "." ++ path
    | .scope offset => s.fileStem ++ "$" ++ toString offset ++ "." ++ path
  (canonicalTypeName? raw).getD raw

/-- The type of what the module of an id exports. -/
def requiredType? (id : String) : Option TypeName := (s.resolve id).bind s.index.moduleType?

/-- The types of the modules that a call requires. -/
def requiredTypes (callee : NodeId) (args : List NodeId) : List TypeName :=
  (s.module.idsRequiredBy callee args).filterMap s.requiredType?

/-- Does the place of a call need a type, even if nothing is known about what is called? It does
on the right of an assignment and in front of a property. -/
def needsObject (n : NodeId) : Bool :=
  match s.module.parent? n with
  | some p =>
    match s.module.form p with
    | .assign .. => s.module.childIndex? n == some 1
    | .member .. => true
    | _ => false
  | none => false

/-- The type on which a property is looked up, for a receiver of the given type. Reaching into
`$` or `jQuery` means the static side of that class. -/
def receiverType (object : NodeId) (type : TypeName) : TypeName :=
  let type := s.renames.apply type
  match s.module.form object with
  | .identifier name =>
    if type == "Function<jQuery>" && (name == "$" || name == "jQuery") then "Class<jQuery>"
    else type
  | _ => type

end Setting

end ScriptTypes
