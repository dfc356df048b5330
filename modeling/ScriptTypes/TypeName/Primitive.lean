import ScriptTypes.TypeName.Basic

/-!
# Primitive types

The types that a literal can have, in the alphabetical order of their names.
-/

namespace ScriptTypes

inductive Primitive where
  | boolean
  | number
  | object
  | regExp
  | string
  deriving DecidableEq, Repr

namespace Primitive

/-- All primitive types, in order. -/
def all : List Primitive := [boolean, number, object, regExp, string]

def chars : Primitive → List Char
  | boolean => TypeName.boolean
  | number => TypeName.number
  | object => TypeName.object
  | regExp => TypeName.regExp
  | string => TypeName.string

/-- The type name of a primitive type. -/
def name (p : Primitive) : String := String.ofList p.chars

end Primitive

end ScriptTypes
