import ScriptTypes.TypeName.Canonical
import ScriptTypes.TypeName.Primitive

/-!
# Type names as strings

The operations on type names for callers that hold strings: building compound names, recognising
them and taking them apart. Only canonical forms and `splitTypeUnion` ignore blanks; all others
take a name as it is.
-/

namespace ScriptTypes

/-- A type name as it is stored. -/
abbrev TypeName := String

namespace TypeName

def arrayType : TypeName := String.ofList array
def booleanType : TypeName := String.ofList boolean
def numberType : TypeName := String.ofList number
def objectType : TypeName := String.ofList object
def stringType : TypeName := String.ofList string

def chars (names : List TypeName) : List (List Char) := names.map String.toList

def unionType (members : List TypeName) : TypeName := String.ofList (union (chars members))

def arrayTypeOf (element : TypeName) : TypeName := String.ofList (arrayOf element.toList)

def classTypeOf (base : TypeName) : TypeName := String.ofList (classOf base.toList)

def functionType (returns : List TypeName) : TypeName := String.ofList (functionOf (chars returns))

def functionSignatureType (params returns : List TypeName) : TypeName :=
  String.ofList (functionSignature (chars params) (chars returns))

def isArrayType (name : TypeName) : Bool := isArray name.toList

def isGenericArrayType (name : TypeName) : Bool := isGenericArray name.toList

def isClassType (name : TypeName) : Bool := isClass name.toList

def isFunctionType (name : TypeName) : Bool := isFunction name.toList

def elementType? (name : TypeName) : Option TypeName := (arrayElement? name.toList).map String.ofList

def classBaseType? (name : TypeName) : Option TypeName := (classBase? name.toList).map String.ofList

def functionReturnTypes (name : TypeName) : List TypeName :=
  (returnTypes name.toList).map String.ofList

def baseType (name : TypeName) : TypeName := String.ofList (base name.toList)

end TypeName

end ScriptTypes
