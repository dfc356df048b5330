import ScriptTypes.TypeName.Named

/-!
# Elements: what is known about a name

An element describes a global, a member of a type or a symbol of a script: its possible types and
the documents that declare it. A function has its parameters and return types besides.
-/

namespace ScriptTypes

structure Parameter where
  name : String
  types : List TypeName := []
  deriving DecidableEq, Repr

/-- How a function is called. -/
structure Signature where
  parameters : List Parameter := []
  returns : List TypeName := []
  deriving DecidableEq, Repr

structure Element where
  name : String
  /-- The type whose member this is. -/
  owner : TypeName := ""
  types : List TypeName := []
  /-- The documents that declare it. -/
  documents : List String := []
  /-- Present for a function. -/
  signature : Option Signature := none
  deriving DecidableEq, Repr

namespace Parameter

/-- The types of a parameter as one name; a parameter without types takes any object. -/
def slot (p : Parameter) : TypeName :=
  if p.types.isEmpty then TypeName.objectType else TypeName.unionType p.types

end Parameter

namespace Signature

/-- The type name of a function with this signature, one slot for each parameter. -/
def typeName (s : Signature) : TypeName :=
  TypeName.functionSignatureType (s.parameters.map Parameter.slot) s.returns

end Signature

namespace Element

/-- What a reference to an element evaluates to: the types of a property; for a function its
signature and those of its types that are no functions. -/
def referenceTypes (e : Element) : List TypeName :=
  match e.signature with
  | none => e.types
  | some s => s.typeName :: e.types.filter (!TypeName.isFunctionType ·)

end Element

end ScriptTypes
