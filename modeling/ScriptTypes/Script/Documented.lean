import ScriptTypes.Script.Tree

/-!
# Attaching documentation

Functions and declarations carry documentation. A block stands in front of one of these:

* a function, which it documents;
* a statement with a list of declarations, or one declaration in such a list. The statement's
  block documents its first declaration;
* a statement that is an expression, or a pair of an object literal.

A block in front of a declaration, a pair, or a statement that is an assignment also documents the
function that is its value, unless that function has a block of its own. Each block is given out
once: a function that starts where its statement starts gets none.
-/

namespace ScriptTypes.Script

/-- Give a block to a function that has none. -/
def giveToFunction (docs : Option Doc.Block) : Tree → Tree
  | .node span (.function name none params body) => .node span (.function name docs params body)
  | t => t

/-- Give a block to the function that an assignment assigns. -/
def giveToAssigned (docs : Option Doc.Block) : Tree → Tree
  | .node span (.assign op lhs rhs) => .node span (.assign op lhs (giveToFunction docs rhs))
  | t => t

/-- Where a list of declarations stands. -/
inductive Position where
  /-- As a statement. -/
  | statement
  /-- In the head of a loop that counts. -/
  | loopHead
  /-- In the head of a loop over keys, where nothing is documented. -/
  | keyHead
  deriving DecidableEq, Repr

/-- What a construct hands down to its parts. -/
structure Context where
  position : Position := .statement
  /-- The start of the expression statement around. -/
  claimed : Option Nat := none
  /-- The block in front of the list of declarations, for the first of them. -/
  offered : Option Doc.Block := none

namespace Context

/-- The context of ordinary parts. -/
def inside (ctx : Context) : Context := { claimed := ctx.claimed }

end Context

mutual

/-- The tree with its documentation, where `blockAt` gives the block in front of an offset. -/
def Tree.document (blockAt : Nat → Option Doc.Block) (ctx : Context) : Tree → Tree
  | .node span form => .node span (documentForm blockAt ctx span.start form)

def documentForm (blockAt : Nat → Option Doc.Block) (ctx : Context) (start : Nat) :
    Form Tree → Form Tree
  | .program items => .program (documentAll blockAt ctx.inside items)
  | .block items => .block (documentAll blockAt ctx.inside items)
  | .var items =>
    let offered := match ctx.position with
      | .statement => blockAt start
      | _ => none
    .var (documentDeclarations blockAt { ctx with offered := offered } items)
  | .declaration name _ value =>
    let docs := match ctx.position with
      | .keyHead => none
      | _ => ctx.offered.or (blockAt start)
    .declaration name docs ((documentOption blockAt ctx.inside value).map (giveToFunction docs))
  | .function name _ params body =>
    let docs := if ctx.claimed = some start then none else blockAt start
    .function name docs (params.document blockAt ctx.inside) (body.document blockAt ctx.inside)
  | .parameters items => .parameters (documentAll blockAt ctx.inside items)
  | .returns value => .returns (documentOption blockAt ctx.inside value)
  | .branch cond yes no =>
    .branch (cond.document blockAt ctx.inside) (yes.document blockAt ctx.inside)
      (documentOption blockAt ctx.inside no)
  | .forLoop init test update body =>
    .forLoop (documentOption blockAt { ctx.inside with position := .loopHead } init)
      (documentOption blockAt ctx.inside test) (documentOption blockAt ctx.inside update)
      (body.document blockAt ctx.inside)
  | .forIn binding object body =>
    .forIn (binding.document blockAt { ctx.inside with position := .keyHead })
      (object.document blockAt ctx.inside) (body.document blockAt ctx.inside)
  | .whileLoop cond body =>
    .whileLoop (cond.document blockAt ctx.inside) (body.document blockAt ctx.inside)
  | .doWhile body cond =>
    .doWhile (body.document blockAt ctx.inside) (cond.document blockAt ctx.inside)
  | .throws value => .throws (value.document blockAt ctx.inside)
  | .tryBlock block handler final =>
    .tryBlock (block.document blockAt ctx.inside) (documentOption blockAt ctx.inside handler)
      (documentOption blockAt ctx.inside final)
  | .handler param body => .handler param (body.document blockAt ctx.inside)
  | .breaks => .breaks
  | .continues => .continues
  | .empty => .empty
  | .statement expr =>
    .statement (giveToAssigned (blockAt start) (expr.document blockAt { claimed := some start }))
  | .comma items => .comma (documentAll blockAt ctx.inside items)
  | .identifier name => .identifier name
  | .this => .this
  | .null => .null
  | .literal value => .literal value
  | .array items => .array (documentAll blockAt ctx.inside items)
  | .object items => .object (documentAll blockAt ctx.inside items)
  | .pair key value =>
    .pair key (giveToFunction (blockAt start) (value.document blockAt ctx.inside))
  | .binary op lhs rhs =>
    .binary op (lhs.document blockAt ctx.inside) (rhs.document blockAt ctx.inside)
  | .assign op lhs rhs =>
    .assign op (lhs.document blockAt ctx.inside) (rhs.document blockAt ctx.inside)
  | .conditional cond yes no =>
    .conditional (cond.document blockAt ctx.inside) (yes.document blockAt ctx.inside)
      (no.document blockAt ctx.inside)
  | .construct callee args =>
    .construct (callee.document blockAt ctx.inside) (documentAll blockAt ctx.inside args)
  | .invoke callee args =>
    .invoke (callee.document blockAt ctx.inside) (documentAll blockAt ctx.inside args)
  | .member object property => .member (object.document blockAt ctx.inside) property
  | .element object index =>
    .element (object.document blockAt ctx.inside) (index.document blockAt ctx.inside)
  | .group inner => .group (inner.document blockAt ctx.inside)
  | .unary op operand => .unary op (operand.document blockAt ctx.inside)
  | .update op operand => .update op (operand.document blockAt ctx.inside)

def documentAll (blockAt : Nat → Option Doc.Block) (ctx : Context) : List Tree → List Tree
  | [] => []
  | t :: ts => t.document blockAt ctx :: documentAll blockAt ctx ts

/-- The block on offer goes to the first declaration only. -/
def documentDeclarations (blockAt : Nat → Option Doc.Block) (ctx : Context) :
    List Tree → List Tree
  | [] => []
  | t :: ts =>
    t.document blockAt ctx :: documentDeclarations blockAt { ctx with offered := none } ts

def documentOption (blockAt : Nat → Option Doc.Block) (ctx : Context) :
    Option Tree → Option Tree
  | none => none
  | some t => some (t.document blockAt ctx)

end

end ScriptTypes.Script
