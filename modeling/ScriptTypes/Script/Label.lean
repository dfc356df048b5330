/-!
# What a script may be expected to continue with

The rules of the grammar that a failure can mention, in the order in which a message lists them,
with their names in messages.
-/

namespace ScriptTypes.Script

inductive Label where
  | endOfInput | program | identifier | propertyName | kVar | kFunction | kReturn | kIf | kElse
  | kFor | kWhile | kDo | kThrow | kTry | kCatch | kFinally | kBreak | kContinue | kNew | block
  | varStatement | varList | declarator | functionDeclaration | functionExpression | parameters
  | functionBody | returnStatement | ifStatement | forStatement | forInHead | varBinding
  | forHead | forInit | forTest | forUpdate | whileStatement | doWhileStatement | throwStatement
  | tryStatement | catchClause | finallyClause | breakStatement | continueStatement
  | emptyStatement | expressionStatement | expression | assignment | conditional | binary | unary
  | postfixed | assignPlain | assignAdd | assignSub | assignMul | assignDiv | assignMod
  | assignUshr | assignShl | assignShr | assignBitAnd | assignBitOr | assignBitXor | opStrictEq
  | opStrictNe | opEq | opNe | opAnd | opOr | opUshr | opShl | opShr | opLe | opGe | opLt | opGt
  | opBitAnd | opBitOr | opBitXor | opAdd | opSub | opMul | opDiv | opMod | opInstanceof | opIn
  | opDelete | opVoid | opTypeof | opIncr | opDecr | opPos | opNeg | opBitNot | opNot
  | leftHandSide | newExpression | newCallee | memberAccess | elementAccess | arguments | group
  | arrayLit | objectLit | property | thisLit | nullLit | booleanLit | numberLit | stringLit
  | templateLit | regexLit
  deriving DecidableEq, Repr

namespace Label

/-- All labels in the order of messages. -/
def all : List Label :=
  [
   endOfInput, program, identifier, propertyName, kVar, kFunction, kReturn, kIf, kElse, kFor,
   kWhile, kDo, kThrow, kTry, kCatch, kFinally, kBreak, kContinue, kNew, block, varStatement,
   varList, declarator, functionDeclaration, functionExpression, parameters, functionBody,
   returnStatement, ifStatement, forStatement, forInHead, varBinding, forHead, forInit, forTest,
   forUpdate, whileStatement, doWhileStatement, throwStatement, tryStatement, catchClause,
   finallyClause, breakStatement, continueStatement, emptyStatement, expressionStatement,
   expression, assignment, conditional, binary, unary, postfixed, assignPlain, assignAdd,
   assignSub, assignMul, assignDiv, assignMod, assignUshr, assignShl, assignShr, assignBitAnd,
   assignBitOr, assignBitXor, opStrictEq, opStrictNe, opEq, opNe, opAnd, opOr, opUshr, opShl,
   opShr, opLe, opGe, opLt, opGt, opBitAnd, opBitOr, opBitXor, opAdd, opSub, opMul, opDiv, opMod,
   opInstanceof, opIn, opDelete, opVoid, opTypeof, opIncr, opDecr, opPos, opNeg, opBitNot, opNot,
   leftHandSide, newExpression, newCallee, memberAccess, elementAccess, arguments, group,
   arrayLit, objectLit, property, thisLit, nullLit, booleanLit, numberLit, stringLit,
   templateLit, regexLit
  ]

/-- The name of a label in a message. -/
def name : Label → String
  | endOfInput => "EOI"
  | program => "program"
  | identifier => "identifier"
  | propertyName => "property_name"
  | kVar => "k_var"
  | kFunction => "k_function"
  | kReturn => "k_return"
  | kIf => "k_if"
  | kElse => "k_else"
  | kFor => "k_for"
  | kWhile => "k_while"
  | kDo => "k_do"
  | kThrow => "k_throw"
  | kTry => "k_try"
  | kCatch => "k_catch"
  | kFinally => "k_finally"
  | kBreak => "k_break"
  | kContinue => "k_continue"
  | kNew => "k_new"
  | block => "block"
  | varStatement => "var_statement"
  | varList => "var_list"
  | declarator => "declarator"
  | functionDeclaration => "function_declaration"
  | functionExpression => "function_expression"
  | parameters => "parameters"
  | functionBody => "function_body"
  | returnStatement => "return_statement"
  | ifStatement => "if_statement"
  | forStatement => "for_statement"
  | forInHead => "for_in_head"
  | varBinding => "var_binding"
  | forHead => "for_head"
  | forInit => "for_init"
  | forTest => "for_test"
  | forUpdate => "for_update"
  | whileStatement => "while_statement"
  | doWhileStatement => "do_while_statement"
  | throwStatement => "throw_statement"
  | tryStatement => "try_statement"
  | catchClause => "catch_clause"
  | finallyClause => "finally_clause"
  | breakStatement => "break_statement"
  | continueStatement => "continue_statement"
  | emptyStatement => "empty_statement"
  | expressionStatement => "expression_statement"
  | expression => "expression"
  | assignment => "assignment"
  | conditional => "conditional"
  | binary => "binary"
  | unary => "unary"
  | postfixed => "postfix"
  | assignPlain => "assign_plain"
  | assignAdd => "assign_add"
  | assignSub => "assign_sub"
  | assignMul => "assign_mul"
  | assignDiv => "assign_div"
  | assignMod => "assign_mod"
  | assignUshr => "assign_ushr"
  | assignShl => "assign_shl"
  | assignShr => "assign_shr"
  | assignBitAnd => "assign_bit_and"
  | assignBitOr => "assign_bit_or"
  | assignBitXor => "assign_bit_xor"
  | opStrictEq => "op_strict_eq"
  | opStrictNe => "op_strict_ne"
  | opEq => "op_eq"
  | opNe => "op_ne"
  | opAnd => "op_and"
  | opOr => "op_or"
  | opUshr => "op_ushr"
  | opShl => "op_shl"
  | opShr => "op_shr"
  | opLe => "op_le"
  | opGe => "op_ge"
  | opLt => "op_lt"
  | opGt => "op_gt"
  | opBitAnd => "op_bit_and"
  | opBitOr => "op_bit_or"
  | opBitXor => "op_bit_xor"
  | opAdd => "op_add"
  | opSub => "op_sub"
  | opMul => "op_mul"
  | opDiv => "op_div"
  | opMod => "op_mod"
  | opInstanceof => "op_instanceof"
  | opIn => "op_in"
  | opDelete => "op_delete"
  | opVoid => "op_void"
  | opTypeof => "op_typeof"
  | opIncr => "op_incr"
  | opDecr => "op_decr"
  | opPos => "op_pos"
  | opNeg => "op_neg"
  | opBitNot => "op_bit_not"
  | opNot => "op_not"
  | leftHandSide => "left_hand_side"
  | newExpression => "new_expression"
  | newCallee => "new_callee"
  | memberAccess => "member_access"
  | elementAccess => "element_access"
  | arguments => "arguments"
  | group => "group"
  | arrayLit => "array_lit"
  | objectLit => "object_lit"
  | property => "property"
  | thisLit => "this_lit"
  | nullLit => "null_lit"
  | booleanLit => "boolean_lit"
  | numberLit => "number_lit"
  | stringLit => "string_lit"
  | templateLit => "template_lit"
  | regexLit => "regex_lit"

/-- Names as an enumeration: one, two with "or", or more with commas and a last "or". -/
def enumerate : List String → String
  | [] => ""
  | [a] => a
  | [a, b] => a ++ " or " ++ b
  | names => String.intercalate ", " names.dropLast ++ ", or " ++ names.getLastD ""

/-- The message for a place where any of the given labels was expected. -/
def message (expected : List Label) : String :=
  "expected " ++ enumerate ((all.filter expected.contains).map name)

end Label

end ScriptTypes.Script
