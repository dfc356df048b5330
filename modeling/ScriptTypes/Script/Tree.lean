import ScriptTypes.Doc.Block
import ScriptTypes.Grammar.Cursor
import ScriptTypes.Script.Operator

/-!
# Scripts as trees

`Form` lists the constructs of the language over children of any type. With trees as children it
is a syntax tree, in which every construct has the span of its text; with numbers as children it
is an entry of the table of nodes in `ScriptTypes.Script.Module`.
-/

namespace ScriptTypes.Script

inductive Literal where
  /-- A string or template, with its escapes replaced. -/
  | string (value : String)
  /-- A number, as the word of its value. -/
  | number (word : UInt64)
  | boolean (value : Bool)
  /-- A regular expression as written, with its delimiters and flags. -/
  | regex (text : String)
  deriving DecidableEq, Repr

inductive Form (α : Type) where
  | program (items : List α)
  | block (items : List α)
  /-- `var`, `let` or `const` with declarations as items. -/
  | var (items : List α)
  | declaration (name : String) (docs : Option Doc.Block) (value : Option α)
  | function (name : Option String) (docs : Option Doc.Block) (params body : α)
  /-- The identifiers in a function's parentheses. -/
  | parameters (items : List α)
  | returns (value : Option α)
  | branch (cond yes : α) (no : Option α)
  | forLoop (init test update : Option α) (body : α)
  | forIn (binding object body : α)
  | whileLoop (cond body : α)
  | doWhile (body cond : α)
  | throws (value : α)
  | tryBlock (block : α) (handler final : Option α)
  | handler (param : String) (body : α)
  | breaks
  | continues
  | empty
  /-- An expression as a statement. -/
  | statement (expr : α)
  | comma (items : List α)
  | identifier (name : String)
  | this
  | null
  | literal (value : Literal)
  | array (items : List α)
  /-- An object literal with pairs as items. -/
  | object (items : List α)
  | pair (key : String) (value : α)
  | binary (op : BinaryOp) (lhs rhs : α)
  | assign (op : AssignOp) (lhs rhs : α)
  | conditional (cond yes no : α)
  | construct (callee : α) (args : List α)
  | invoke (callee : α) (args : List α)
  | member (object : α) (property : String)
  | element (object index : α)
  | group (inner : α)
  | unary (op : UnaryOp) (operand : α)
  | update (op : UpdateOp) (operand : α)

/-- The children of a construct in the order of the text. -/
def Form.children {α : Type} : Form α → List α
  | program items | block items | var items | parameters items | comma items | array items
  | object items => items
  | declaration _ _ value | returns value => value.toList
  | function _ _ params body => [params, body]
  | branch cond yes no => cond :: yes :: no.toList
  | forLoop init test step body => init.toList ++ test.toList ++ step.toList ++ [body]
  | forIn binding target body => [binding, target, body]
  | whileLoop cond body => [cond, body]
  | doWhile body cond => [body, cond]
  | tryBlock body onThrow atEnd => body :: onThrow.toList ++ atEnd.toList
  | handler _ body => [body]
  | throws e | statement e | group e | pair _ e | member e _ | unary _ e | update _ e => [e]
  | binary _ lhs rhs | assign _ lhs rhs => [lhs, rhs]
  | element target index => [target, index]
  | conditional cond yes no => [cond, yes, no]
  | construct callee args | invoke callee args => callee :: args
  | breaks | continues | empty | identifier _ | this | null | literal _ => []

/-- A construct with the span of its text. -/
inductive Tree where
  | node (span : Span) (form : Form Tree)

namespace Tree

def span : Tree → Span
  | node s _ => s

def form : Tree → Form Tree
  | node _ f => f

end Tree

end ScriptTypes.Script
