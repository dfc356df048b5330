/-!
# Operators

The operators of the script language with their written forms. A binary operator either computes
a number (or joins strings, for `+`) or compares or combines truth values; each has a precedence.
-/

namespace ScriptTypes.Script

inductive ArithmeticOp where
  | add | sub | mul | div | mod | shl | shr | ushr | bitAnd | bitOr | bitXor
  deriving DecidableEq, Repr

inductive LogicalOp where
  | and | or | eq | notEq | strictEq | strictNotEq | less | lessEq | greater | greaterEq
  | isIn | instanceOf
  deriving DecidableEq, Repr

inductive BinaryOp where
  | arithmetic (op : ArithmeticOp)
  | logical (op : LogicalOp)
  deriving DecidableEq, Repr

/-- Plain assignment, or assignment of the result of an arithmetic operator. -/
inductive AssignOp where
  | plain
  | compound (op : ArithmeticOp)
  deriving DecidableEq, Repr

/-- The operators in front of their operand. -/
inductive UnaryOp where
  | delete | void | typeOf | increment | decrement | plus | minus | bitNot | not
  deriving DecidableEq, Repr

/-- The operators behind their operand. -/
inductive UpdateOp where
  | increment | decrement
  deriving DecidableEq, Repr

def ArithmeticOp.symbol : ArithmeticOp → String
  | add => "+"
  | sub => "-"
  | mul => "*"
  | div => "/"
  | mod => "%"
  | shl => "<<"
  | shr => ">>"
  | ushr => ">>>"
  | bitAnd => "&"
  | bitOr => "|"
  | bitXor => "^"

def LogicalOp.symbol : LogicalOp → String
  | and => "&&"
  | or => "||"
  | eq => "=="
  | notEq => "!="
  | strictEq => "==="
  | strictNotEq => "!=="
  | less => "<"
  | lessEq => "<="
  | greater => ">"
  | greaterEq => ">="
  | isIn => "in"
  | instanceOf => "instanceof"

def BinaryOp.symbol : BinaryOp → String
  | arithmetic op => op.symbol
  | logical op => op.symbol

def AssignOp.symbol : AssignOp → String
  | plain => "="
  | compound op => op.symbol ++ "="

/-- Operators that are words are written with the space that separates them from their operand. -/
def UnaryOp.symbol : UnaryOp → String
  | delete => "delete "
  | void => "void "
  | typeOf => "typeof "
  | increment => "++"
  | decrement => "--"
  | plus => "+"
  | minus => "-"
  | bitNot => "~"
  | not => "!"

def UpdateOp.symbol : UpdateOp → String
  | increment => "++"
  | decrement => "--"

/-- How tightly an operator binds; a higher precedence binds tighter. -/
def BinaryOp.precedence : BinaryOp → Nat
  | logical .or => 1
  | logical .and => 2
  | arithmetic .bitOr => 3
  | arithmetic .bitXor => 4
  | arithmetic .bitAnd => 5
  | logical .eq | logical .notEq | logical .strictEq | logical .strictNotEq => 6
  | logical .less | logical .lessEq | logical .greater | logical .greaterEq
  | logical .isIn | logical .instanceOf => 7
  | arithmetic .shl | arithmetic .shr | arithmetic .ushr => 8
  | arithmetic .add | arithmetic .sub => 9
  | arithmetic .mul | arithmetic .div | arithmetic .mod => 10

end ScriptTypes.Script
