import ScriptTypes.Grammar.Peg
import ScriptTypes.Script.Chain
import ScriptTypes.Script.Escape
import ScriptTypes.Script.Label
import ScriptTypes.Script.Lexeme
import ScriptTypes.Script.Numeral

/-!
# The grammar of scripts

A subset of ES5: semicolons are optional, and comments are skipped with the blanks. The three
rules that the others refer back to are `Rule`; every other rule is an expression of its own.
Trees are built as the text is matched, so a matched script has all its parts.
-/

namespace ScriptTypes.Script

/-- The rules that other rules call. -/
inductive Rule where
  | statement
  | assignment
  | newExpression
  deriving DecidableEq, Repr

namespace Syntax

open Grammar (Lexeme Peg)
open Grammar.Peg (call labelled lexeme many map oneOf opt right seq spanned)

/-- Expressions of the grammar of scripts. -/
abbrev Expr := Peg Label Rule Tree

/-! ### Building blocks -/

/-- A mark that failures do not mention. -/
def mark (s : String) : Expr (List Char) := lexeme (Grammar.Lexeme.exactly s.toList)

/-- A lexeme that failures mention. -/
def token (label : Label) (lex : Lexeme) : Expr (List Char) := labelled label (lexeme lex)

/-- A lexeme with a fixed meaning. -/
def means {α : Type} (label : Label) (lex : Lexeme) (a : α) : Expr α :=
  map (fun _ => a) (token label lex)

/-- A mark with a fixed meaning. -/
def meansMark {α : Type} (label : Label) (s : String) (a : α) : Expr α :=
  means label (Grammar.Lexeme.exactly s.toList) a

/-- A mark that one of the characters of `next` would continue. -/
def meansUnless {α : Type} (label : Label) (s next : String) (a : α) : Expr α :=
  means label (Grammar.Lexeme.unlessNext (Grammar.Lexeme.exactly s.toList) next.toList.contains) a

/-- A reserved word. -/
def keyword (label : Label) (w : String) : Expr (List Char) := token label (Lexeme.word w.toList)

/-- A labelled rule whose match is one construct. -/
def construct {α : Type} (label : Label) (p : Expr α) (form : α → Form Tree) : Expr Tree :=
  labelled label (map (fun (span, a) => .node span (form a)) (spanned p))

/-- One or more items with commas between them. -/
def commaList {α : Type} (p : Expr α) : Expr (List α) :=
  map (fun (a, as) => a :: as) (seq p (many (right (mark ",") p)))

def semicolon : Expr (Option (List Char)) := opt (mark ";")

def inParens {α : Type} (p : Expr α) : Expr α :=
  right (mark "(") (Grammar.Peg.left p (mark ")"))

def text (cs : List Char) : String := String.ofList cs

def identifier : Expr String := map text (token .identifier Lexeme.identifier)

def propertyName : Expr String := map text (token .propertyName Lexeme.propertyName)

def statement : Expr Tree := call .statement

def assignment : Expr Tree := call .assignment

/-! ### Literals -/

/-- The inside of a literal between two marks. -/
def inner (cs : List Char) : List Char := (cs.drop 1).dropLast

def stringText : Expr String :=
  map (fun cs => text (unescape (inner cs))) (token .stringLit Lexeme.string)

def numberText : Expr (List Char) := token .numberLit Lexeme.number

/-- A lexeme that is a construct on its own. -/
def leaf (label : Label) (lex : Lexeme) (form : List Char → Form Tree) : Expr Tree :=
  construct label (lexeme lex) form

def thisLit : Expr Tree := leaf .thisLit (Lexeme.word "this".toList) fun _ => .this

def nullLit : Expr Tree := leaf .nullLit (Lexeme.word "null".toList) fun _ => .null

def booleanLit : Expr Tree :=
  leaf .booleanLit
    (Grammar.Lexeme.unlessNext
      (Grammar.Lexeme.orElse (Grammar.Lexeme.exactly "true".toList)
        (Grammar.Lexeme.exactly "false".toList))
      Lexeme.isNameChar)
    fun cs => .literal (.boolean (cs == "true".toList))

def numberLit : Expr Tree :=
  leaf .numberLit Lexeme.number fun cs => .literal (.number (Numeral.word cs))

def stringLit : Expr Tree :=
  leaf .stringLit Lexeme.string fun cs => .literal (.string (text (unescape (inner cs))))

def templateLit : Expr Tree :=
  leaf .templateLit Lexeme.template fun cs => .literal (.string (text (unescape (inner cs))))

def regexLit : Expr Tree :=
  leaf .regexLit Lexeme.regex fun cs => .literal (.regex (text cs))

def name : Expr Tree := leaf .identifier Lexeme.identifier fun cs => .identifier (text cs)

/-! ### Expressions -/

def expression : Expr Tree :=
  labelled .expression
    (map (fun (span, items) => match items with
        | [e] => e
        | items => .node span (.comma items))
      (spanned (commaList assignment)))

def group : Expr Tree := construct .group (inParens expression) .group

/-- Items with commas between them, none at all, and a comma after the last one. -/
def items (p : Expr Tree) : Expr (List Tree) :=
  Grammar.Peg.left (map (·.getD []) (opt (commaList p))) (opt (mark ","))

def arrayLit : Expr Tree :=
  construct .arrayLit (right (mark "[") (Grammar.Peg.left (items assignment) (mark "]"))) .array

def propertyKey : Expr String :=
  oneOf stringText [map text numberText, propertyName]

def property : Expr Tree :=
  construct .property (seq propertyKey (right (mark ":") assignment)) fun (key, value) =>
    .pair key value

def objectLit : Expr Tree :=
  construct .objectLit (right (mark "\x7b") (Grammar.Peg.left (items property) (mark "\x7d")))
    .object

def parameters : Expr Tree :=
  construct .parameters
    (inParens (map (·.getD []) (opt (commaList name))))
    .parameters

def braced (label : Label) : Expr Tree :=
  construct label (right (mark "\x7b") (Grammar.Peg.left (many statement) (mark "\x7d"))) .block

def functionBody : Expr Tree := braced .functionBody

def block : Expr Tree := braced .block

def functionExpression : Expr Tree :=
  construct .functionExpression
    (right (keyword .kFunction "function") (seq (opt identifier) (seq parameters functionBody)))
    fun (name, params, body) => .function name none params body

def primary : Expr Tree :=
  oneOf functionExpression
    [thisLit, nullLit, booleanLit, numberLit, stringLit, templateLit, regexLit, arrayLit,
     objectLit, group, name]

/-- What may follow an operand to reach into it or call it. -/
inductive Accessor where
  | member (property : String)
  | element (index : Tree)
  | arguments (args : List Tree)

def memberAccess : Expr Accessor :=
  labelled .memberAccess (map .member (right (mark ".") propertyName))

def elementAccess : Expr Accessor :=
  labelled .elementAccess
    (map .element (right (mark "[") (Grammar.Peg.left expression (mark "]"))))

def arguments : Expr (List Tree) :=
  labelled .arguments (inParens (map (·.getD []) (opt (commaList assignment))))

/-- One accessor on an operand that starts at `start`. -/
def access (start : Nat) (operand : Tree) : Span × Accessor → Tree
  | (span, .member property) => .node ⟨start, span.stop⟩ (.member operand property)
  | (span, .element index) => .node ⟨start, span.stop⟩ (.element operand index)
  | (span, .arguments args) => .node ⟨start, span.stop⟩ (.invoke operand args)

/-- An operand with the accessors behind it, applied from left to right. -/
def accessed (label : Label) (accessor : Expr Accessor) : Expr Tree :=
  labelled label
    (map (fun (span, operand, accessors) => accessors.foldl (access span.start) operand)
      (spanned
        (seq (oneOf (call .newExpression) [primary]) (many (spanned accessor)))))

def newCallee : Expr Tree := accessed .newCallee (oneOf memberAccess [elementAccess])

def leftHandSide : Expr Tree :=
  accessed .leftHandSide (oneOf memberAccess [elementAccess, map .arguments arguments])

def newExpression : Expr Tree :=
  construct .newExpression
    (right (keyword .kNew "new") (seq newCallee (opt arguments)))
    fun (callee, args) => .construct callee (args.getD [])

def updateOp : Expr UpdateOp :=
  oneOf (meansMark .opIncr "++" .increment) [meansMark .opDecr "--" .decrement]

def postfixed : Expr Tree :=
  labelled .postfixed
    (map (fun (span, operand, op) => match op with
        | some op => .node span (.update op operand)
        | none => operand)
      (spanned (seq leftHandSide (opt updateOp))))

def unaryOp : Expr UnaryOp :=
  oneOf (means .opDelete (Lexeme.word "delete".toList) .delete)
    [means .opVoid (Lexeme.word "void".toList) .void,
     means .opTypeof (Lexeme.word "typeof".toList) .typeOf,
     meansMark .opIncr "++" .increment,
     meansMark .opDecr "--" .decrement,
     meansMark .opPos "+" .plus,
     meansMark .opNeg "-" .minus,
     meansMark .opBitNot "~" .bitNot,
     meansMark .opNot "!" .not]

/-- Operators in front of an operand, the nearest one applied first. Each reaches from itself to
the end of the operand. -/
def applyUnary (ops : List (Span × UnaryOp)) (operand : Tree) : Tree :=
  ops.foldr
    (fun (span, op) inner => .node ⟨span.start, operand.span.stop⟩ (.unary op inner)) operand

def unary : Expr Tree :=
  labelled .unary
    (map (fun (ops, operand) => applyUnary ops operand)
      (seq (many (spanned unaryOp)) postfixed))

def binaryOp : Expr BinaryOp :=
  oneOf (meansMark .opStrictEq "===" (.logical .strictEq))
    [meansMark .opStrictNe "!==" (.logical .strictNotEq),
     meansMark .opEq "==" (.logical .eq),
     meansMark .opNe "!=" (.logical .notEq),
     meansMark .opAnd "&&" (.logical .and),
     meansMark .opOr "||" (.logical .or),
     meansUnless .opUshr ">>>" "=" (.arithmetic .ushr),
     meansUnless .opShl "<<" "=" (.arithmetic .shl),
     meansUnless .opShr ">>" "=" (.arithmetic .shr),
     meansMark .opLe "<=" (.logical .lessEq),
     meansMark .opGe ">=" (.logical .greaterEq),
     meansMark .opLt "<" (.logical .less),
     meansMark .opGt ">" (.logical .greater),
     meansUnless .opBitAnd "&" "&=" (.arithmetic .bitAnd),
     meansUnless .opBitOr "|" "|=" (.arithmetic .bitOr),
     meansUnless .opBitXor "^" "=" (.arithmetic .bitXor),
     meansUnless .opAdd "+" "+=" (.arithmetic .add),
     meansUnless .opSub "-" "-=" (.arithmetic .sub),
     meansUnless .opMul "*" "=" (.arithmetic .mul),
     meansUnless .opDiv "/" "=" (.arithmetic .div),
     meansUnless .opMod "%" "=" (.arithmetic .mod),
     means .opInstanceof (Lexeme.word "instanceof".toList) (.logical .instanceOf),
     means .opIn (Lexeme.word "in".toList) (.logical .isIn)]

def binary : Expr Tree :=
  labelled .binary
    (map (fun (first, rest) => Chain.resolve first rest)
      (seq unary (many (seq binaryOp unary))))

def conditional : Expr Tree :=
  labelled .conditional
    (map (fun (span, cond, branches) => match branches with
        | some (yes, no) => .node span (.conditional cond yes no)
        | none => cond)
      (spanned
        (seq binary
          (opt (right (mark "?") (seq assignment (right (mark ":") assignment)))))))

def assignOp : Expr AssignOp :=
  oneOf (meansUnless .assignPlain "=" "=" .plain)
    [meansMark .assignAdd "+=" (.compound .add),
     meansMark .assignSub "-=" (.compound .sub),
     meansMark .assignMul "*=" (.compound .mul),
     meansMark .assignDiv "/=" (.compound .div),
     meansMark .assignMod "%=" (.compound .mod),
     meansMark .assignUshr ">>>=" (.compound .ushr),
     meansMark .assignShl "<<=" (.compound .shl),
     meansMark .assignShr ">>=" (.compound .shr),
     meansMark .assignBitAnd "&=" (.compound .bitAnd),
     meansMark .assignBitOr "|=" (.compound .bitOr),
     meansMark .assignBitXor "^=" (.compound .bitXor)]

def assignmentBody : Expr Tree :=
  labelled .assignment
    (map (fun (span, lhs, tail) => match tail with
        | some (op, rhs) => .node span (.assign op lhs rhs)
        | none => lhs)
      (spanned (seq conditional (opt (seq assignOp assignment)))))

/-! ### Statements -/

def kVar : Expr (List Char) :=
  token .kVar
    (Grammar.Lexeme.unlessNext
      (Grammar.Lexeme.orElse (Grammar.Lexeme.exactly "var".toList)
        (Grammar.Lexeme.orElse (Grammar.Lexeme.exactly "let".toList)
          (Grammar.Lexeme.exactly "const".toList)))
      Lexeme.isNameChar)

def declarator : Expr Tree :=
  construct .declarator (seq identifier (opt (right (mark "=") assignment))) fun (name, value) =>
    .declaration name none value

def varList : Expr Tree := construct .varList (right kVar (commaList declarator)) .var

def varStatement : Expr Tree := labelled .varStatement (Grammar.Peg.left varList semicolon)

def functionDeclaration : Expr Tree :=
  construct .functionDeclaration
    (right (keyword .kFunction "function") (seq identifier (seq parameters functionBody)))
    fun (name, params, body) => .function (some name) none params body

def returnStatement : Expr Tree :=
  construct .returnStatement
    (right (keyword .kReturn "return") (Grammar.Peg.left (opt expression) semicolon)) .returns

def ifStatement : Expr Tree :=
  construct .ifStatement
    (right (keyword .kIf "if")
      (seq (inParens expression)
        (seq statement (opt (right (keyword .kElse "else") statement)))))
    fun (cond, yes, no) => .branch cond yes no

/-- The two kinds of heads of a `for` statement. -/
inductive ForHead where
  | each (binding object : Tree)
  | counted (init test update : Option Tree)

/-- The variable of a `for`-`in` head: a declaration without a value. -/
def varBinding : Expr Tree :=
  labelled .varBinding
    (map (fun (span, name) => .node span (.var [.node span (.declaration name none none)]))
      (spanned (right kVar identifier)))

def forInHead : Expr ForHead :=
  labelled .forInHead
    (map (fun (binding, object) => .each binding object)
      (seq (oneOf varBinding [leftHandSide])
        (right (keyword .opIn "in") expression)))

def forHead : Expr ForHead :=
  labelled .forHead
    (map (fun (init, test, update) => .counted init test update)
      (seq
        (Grammar.Peg.left (labelled .forInit (opt (oneOf varList [expression]))) (mark ";"))
        (seq (Grammar.Peg.left (labelled .forTest (opt expression)) (mark ";"))
          (labelled .forUpdate (opt expression)))))

def forStatement : Expr Tree :=
  construct .forStatement
    (right (keyword .kFor "for") (seq (inParens (oneOf forInHead [forHead])) statement))
    fun (head, body) => match head with
      | .each binding object => .forIn binding object body
      | .counted init test update => .forLoop init test update body

def whileStatement : Expr Tree :=
  construct .whileStatement
    (right (keyword .kWhile "while") (seq (inParens expression) statement))
    fun (cond, body) => .whileLoop cond body

def doWhileStatement : Expr Tree :=
  construct .doWhileStatement
    (right (keyword .kDo "do")
      (seq statement
        (right (keyword .kWhile "while") (Grammar.Peg.left (inParens expression) semicolon))))
    fun (body, cond) => .doWhile body cond

def throwStatement : Expr Tree :=
  construct .throwStatement
    (right (keyword .kThrow "throw") (Grammar.Peg.left expression semicolon)) .throws

def catchClause : Expr Tree :=
  construct .catchClause
    (right (keyword .kCatch "catch") (seq (inParens identifier) block))
    fun (param, body) => .handler param body

def finallyClause : Expr Tree :=
  labelled .finallyClause (right (keyword .kFinally "finally") block)

def tryStatement : Expr Tree :=
  construct .tryStatement
    (right (keyword .kTry "try") (seq block (seq (opt catchClause) (opt finallyClause))))
    fun (body, handler, final) => .tryBlock body handler final

def breakStatement : Expr Tree :=
  construct .breakStatement (right (keyword .kBreak "break") semicolon) fun _ => .breaks

def continueStatement : Expr Tree :=
  construct .continueStatement (right (keyword .kContinue "continue") semicolon)
    fun _ => .continues

def emptyStatement : Expr Tree := construct .emptyStatement (mark ";") fun _ => .empty

def expressionStatement : Expr Tree :=
  construct .expressionStatement (Grammar.Peg.left expression semicolon) .statement

def statementBody : Expr Tree :=
  oneOf block
    [varStatement, functionDeclaration, returnStatement, ifStatement, forStatement,
     whileStatement, doWhileStatement, throwStatement, tryStatement, breakStatement,
     continueStatement, emptyStatement, expressionStatement]

def endOfInput : Expr (List Char) := token .endOfInput Grammar.Lexeme.atEnd

/-- The statements of a whole text. -/
def program : Expr (List Tree) :=
  labelled .program
    (right (lexeme Grammar.Lexeme.nothing) (Grammar.Peg.left (many statement) endOfInput))

end Syntax

/-- The grammar of scripts. -/
def rules : Grammar.Rules Label Rule Tree where
  blanks := Lexeme.blanks
  body
    | .statement => Syntax.statementBody
    | .assignment => Syntax.assignmentBody
    | .newExpression => Syntax.newExpression

/-- Why a text is no script: where it could not be continued, and with what it could have been. -/
structure ParseError where
  offset : Nat
  expected : List Label
  deriving DecidableEq, Repr

def ParseError.message (e : ParseError) : String := Label.message e.expected

/-- The nesting of calls in a text of this length. Of three calls in a row at least one follows a
character that the call before had not read. -/
def callDepth (cs : List Char) : Nat := 3 * cs.length + 6

/-- The tree of a text, spanning all of it. -/
def parse (cs : List Char) : Except ParseError Tree :=
  match rules.parseText Syntax.program (callDepth cs) cs with
  | (some (items, _), _) => .ok (.node ⟨0, Text.byteSize cs⟩ (.program items))
  | (none, f) => .error ⟨f.offset, f.expected.toList⟩

/-- The tree of a text is a program that spans all of it. -/
theorem parseText_of_parse {cs : List Char} {t : Tree} (h : parse cs = .ok t) :
    ∃ items c f, rules.parseText Syntax.program (callDepth cs) cs = (some (items, c), f) ∧
      t = .node ⟨0, Text.byteSize cs⟩ (.program items) := by
  unfold parse at h
  split at h
  · rename_i items c f hparse
    cases h
    exact ⟨items, c, f, hparse, rfl⟩
  · cases h

end ScriptTypes.Script
