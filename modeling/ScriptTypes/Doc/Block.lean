import ScriptTypes.TypeName.Named

/-!
# Documentation blocks

A block documents a function or a declaration: free text, then tags in the order in which they
were written. Tags for parameters, results and types list canonical type names.
-/

namespace ScriptTypes.Doc

/-- How a documented parameter takes arguments. -/
inductive Usage where
  | required
  /-- The parameter may be left out, perhaps with a default. -/
  | optional
  /-- The parameter stands for all further arguments. -/
  | oneOrMore
  deriving DecidableEq, Repr

inductive Tag where
  | param (name : String) (types : List TypeName) (usage : Usage) (text : String)
  | result (types : List TypeName) (text : String)
  | type (types : List TypeName) (text : String)
  | other (name : String) (text : String)
  deriving DecidableEq, Repr

structure Block where
  text : String := ""
  tags : List Tag := []
  deriving DecidableEq, Repr

/-- A documented parameter. -/
structure Param where
  name : String
  types : List TypeName
  usage : Usage
  text : String
  deriving DecidableEq, Repr

namespace Tag

def param? : Tag → Option Param
  | param name types usage text => some ⟨name, types, usage, text⟩
  | _ => none

/-- Does a question for the tag `name` mean this tag? Results answer to two names. -/
def answersTo (name : String) : Tag → Bool
  | param .. => name == "param"
  | result .. => name == "return" || name == "returns"
  | type .. => name == "type"
  | other n _ => n == name

def resultTypes : Tag → List TypeName
  | result types _ => types
  | _ => []

def declaredTypes : Tag → List TypeName
  | type types _ => types
  | _ => []

def isResult : Tag → Bool
  | result .. => true
  | _ => false

end Tag

namespace Block

/-- The documented parameters, in the order in which they were written. -/
def params (b : Block) : List Param := b.tags.filterMap Tag.param?

def paramAt? (b : Block) (i : Nat) : Option Param := b.params[i]?

def resultTypes (b : Block) : List TypeName := b.tags.flatMap Tag.resultTypes

def hasResult (b : Block) : Bool := b.tags.any Tag.isResult

def declaredTypes (b : Block) : List TypeName := b.tags.flatMap Tag.declaredTypes

def hasTag (b : Block) (name : String) : Bool := b.tags.any (Tag.answersTo name)

end Block

end ScriptTypes.Doc
