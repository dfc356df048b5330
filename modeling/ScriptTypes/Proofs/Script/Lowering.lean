import ScriptTypes.Proofs.Grammar.Pairs
import ScriptTypes.Script.Module

/-!
# Lowering pairs

A script can also be read in two passes. The first one finds the pairs of a text, which have labels
and texts but are not yet constructs. The second one lowers them: it takes each pair apart by the
labels, the number and the order of the pairs inside it, and adds constructs to a table as it goes.
Documentation comments wait to be claimed, and each one is handed out once.

Lowering accepts any pairs. Where a pair lacks a part, a missing node or an empty name takes its
place, and a pair that has no business where it stands is passed over. Drafts count these fallbacks.
-/

namespace ScriptTypes.Script

open Grammar (Pair)

/-! ### Drafts -/

/-- A node of a draft. -/
inductive Node where
  /-- What takes the place of a part that a pair lacks. -/
  | missing
  | form (f : Form NodeId)

/-- A node with its span, in offsets of 32 bits, and its documentation. -/
structure Slot where
  span : Span
  node : Node
  docs : Option Doc.Block := none

/-- Give a block to a function that has none. -/
def Slot.give (docs : Option Doc.Block) (slot : Slot) : Slot :=
  match slot.node, slot.docs with
  | .form (.function ..), none => { slot with docs := docs }
  | _, _ => slot

/-- What is assigned, if the node is an assignment. -/
def Slot.assigned? (slot : Slot) : Option NodeId :=
  match slot.node with
  | .form (.assign _ _ rhs) => some rhs
  | _ => none

/-- A table of nodes in the making. -/
structure Draft where
  slots : Array Slot := #[]
  /-- The comments that no construct has claimed yet. -/
  pending : List DocComment := []
  /-- How often pairs were not as they should be. -/
  fallbacks : Nat := 0

/-- Lowering adds to a draft. -/
abbrev Lowering := StateM Draft

namespace Lowering

/-- Add a construct. -/
def add (span : Span) (form : Form NodeId) (docs : Option Doc.Block := none) : Lowering NodeId :=
  modifyGet fun d =>
    (d.slots.size, { d with slots := d.slots.push ⟨span.stored, .form form, docs⟩ })

@[simp] theorem add_stored_stop (start : Nat) (s : Span) (form : Form NodeId)
    (docs : Option Doc.Block) :
    add ⟨start, s.stored.stop⟩ form docs = add ⟨start, s.stop⟩ form docs := by
  simp [add, Span.stored]

@[simp] theorem add_stored_start (s : Span) (stop : Nat) (form : Form NodeId)
    (docs : Option Doc.Block) :
    add ⟨s.stored.start, stop⟩ form docs = add ⟨s.start, stop⟩ form docs := by
  simp [add, Span.stored]

def fallback : Lowering Unit := modify fun d => { d with fallbacks := d.fallbacks + 1 }

/-- Add a node in place of a part that is lacking. -/
def missing (offset : Nat) : Lowering NodeId := do
  fallback
  modifyGet fun d =>
    (d.slots.size, { d with slots := d.slots.push ⟨Span.stored ⟨offset, offset⟩, .missing, none⟩ })

/-- Claim the comment in front of an offset. A comment that cannot be read is gone, too. -/
def take (offset : Nat) : Lowering (Option Doc.Block) :=
  modifyGet fun d => (DocComments.blockAt? d.pending offset,
    { d with pending := d.pending.filter fun c => c.target != offset })

/-- The block on offer, or else the one in front of an offset. -/
def claim (offered : Option Doc.Block) (offset : Nat) : Lowering (Option Doc.Block) :=
  match offered with
  | some docs => return some docs
  | none => take offset

/-- Give a block to a node if it is a function that has none. -/
def give (docs : Option Doc.Block) (n : NodeId) : Lowering Unit :=
  modify fun d => { d with slots := d.slots.modify n (·.give docs) }

/-- Give a block to the function that a node assigns. -/
def giveAssigned (docs : Option Doc.Block) (n : NodeId) : Lowering Unit := do
  let d ← get
  (d.slots[n]?.bind Slot.assigned?).forM (give docs)

/-- The span of a node in the draft. -/
def spanAt (n : NodeId) : Lowering (Option Span) := do
  return (← get).slots[n]?.map Slot.span

end Lowering

/-! ### Parts of pairs -/

/-- A pair with what it is lowered to as a statement and as an expression. -/
structure Part where
  label : Label
  span : Span
  text : List Char
  statement : Lowering NodeId
  expr : Lowering NodeId
  inner : List Part

def Label.isKeyword : Label → Bool
  | kVar | kFunction | kReturn | kIf | kElse | kFor | kWhile | kDo | kThrow | kTry | kCatch
  | kFinally | kBreak | kContinue | kNew | endOfInput => true
  | _ => false

namespace Lowering

/-- Parts other than keywords. -/
def significant (parts : List Part) : List Part := parts.filter fun p => !p.label.isKeyword

def statementOr (offset : Nat) : Option Part → Lowering NodeId
  | some p => p.statement
  | none => missing offset

def exprOr (offset : Nat) : Option Part → Lowering NodeId
  | some p => p.expr
  | none => missing offset

def ifAny (lower : Part → Lowering NodeId) : Option Part → Lowering (Option NodeId)
  | some p => return some (← lower p)
  | none => return none

/-- The text of a part as a name. -/
def name : Option Part → Lowering String
  | some p => return Syntax.text p.text
  | none => do
    fallback
    return ""

/-! ### Statements -/

/-- The block on offer goes to the first declaration only. -/
def declarations : (offered : Option Doc.Block) → List Part → Lowering (List NodeId)
  | _, [] => return []
  | offered, p :: ps => do
    let docs ← claim offered p.span.start
    let name ← name p.inner[0]?
    let value ← ifAny Part.expr p.inner[1]?
    value.forM (give docs)
    let declaration ← add p.span (.declaration name none value) docs
    return declaration :: (← declarations none ps)

def varList (offered : Option Doc.Block) (p : Part) : Lowering NodeId := do
  add p.span (.var (← declarations offered (significant p.inner)))

/-- What has been found in a function so far. -/
structure FunctionParts where
  name : Option String := none
  params : Option NodeId := none
  body : Option NodeId := none

def parameter (p : Part) : Lowering NodeId := add p.span (.identifier (Syntax.text p.text))

def functionPart (found : FunctionParts) (p : Part) : Lowering FunctionParts :=
  match p.label with
  | .identifier => return { found with name := some (Syntax.text p.text) }
  | .parameters => do
    let params ← add p.span (.parameters (← p.inner.mapM parameter))
    return { found with params := some params }
  | .functionBody => return { found with body := some (← p.statement) }
  | _ => do
    fallback
    return found

def function (span : Span) (inner : List Part) : Lowering NodeId := do
  let docs ← take span.start
  let found ← (significant inner).foldlM functionPart {}
  let params ← match found.params with
    | some params => pure params
    | none => do
      fallback
      add ⟨span.start, span.start⟩ (.parameters [])
  let body ← match found.body with
    | some body => pure body
    | none => missing span.start
  add span (.function found.name none params body) docs

/-- What has been found in a `try` statement so far. -/
structure TryParts where
  block : Option NodeId := none
  handler : Option NodeId := none
  final : Option NodeId := none

def tryPart (found : TryParts) (p : Part) : Lowering TryParts :=
  match p.label with
  | .block => return { found with block := some (← p.statement) }
  | .catchClause => do
    let inner := significant p.inner
    let param ← name inner[0]?
    let body ← statementOr p.span.start inner[1]?
    return { found with handler := some (← add p.span (.handler param body)) }
  | .finallyClause =>
    return { found with final := some (← statementOr p.span.start (significant p.inner)[0]?) }
  | _ => do
    fallback
    return found

def tryStatement (span : Span) (inner : List Part) : Lowering NodeId := do
  let found ← (significant inner).foldlM tryPart {}
  let block ← match found.block with
    | some block => pure block
    | none => missing span.start
  add span (.tryBlock block found.handler found.final)

/-- What a loop over keys assigns to. -/
def keyBinding (start : Nat) : Option Part → Lowering NodeId
  | some p =>
    if p.label = .varBinding then do
      let declaration ← add p.span (.declaration (← name (significant p.inner)[0]?) none none)
      add p.span (.var [declaration])
    else p.expr
  | none => missing start

/-- What has been found in the head of a loop that counts so far. -/
structure LoopParts where
  init : Option NodeId := none
  test : Option NodeId := none
  update : Option NodeId := none

/-- What stands in one place of the head. -/
def loopChild (p : Part) : Lowering NodeId :=
  if p.label = .varList then varList none p else p.expr

def loopPart (found : LoopParts) (p : Part) : Lowering LoopParts :=
  match p.inner with
  | [] => return found
  | child :: _ => do
    let n ← loopChild child
    match p.label with
    | .forInit => return { found with init := some n }
    | .forTest => return { found with test := some n }
    | _ => return { found with update := some n }

/-- The loop with this head over a body. -/
def loop (span : Span) (body : NodeId) : Option Part → Lowering NodeId
  | none => do
    let binding ← missing span.start
    let target ← missing span.start
    add span (.forIn binding target body)
  | some head =>
    if head.label = .forInHead then do
      let parts := head.inner.filter fun p => p.label != .opIn
      let binding ← keyBinding span.start parts[0]?
      let target ← exprOr span.start parts[1]?
      add span (.forIn binding target body)
    else do
      let found ← head.inner.foldlM loopPart {}
      add span (.forLoop found.init found.test found.update body)

/-- The body of a loop is lowered before its head. -/
def forStatement (span : Span) (inner : List Part) : Lowering NodeId := do
  let inner := significant inner
  let body ← statementOr span.start inner[1]?
  loop span body inner[0]?

/-! ### Expressions -/

/-- The values of literals between two marks. -/
def quoted (text : List Char) : String := Syntax.text (unescape (Syntax.inner text))

/-- The key of a property. -/
def key : Option Part → Lowering String
  | some p => if p.label = .stringLit then return quoted p.text else name (some p)
  | none => name none

def property (p : Part) : Lowering NodeId := do
  let docs ← take p.span.start
  let key ← key p.inner[0]?
  let value ← exprOr p.span.start p.inner[1]?
  give docs value
  add p.span (.pair key value)

def arguments (p : Part) : Lowering (List NodeId) := p.inner.mapM Part.expr

/-- One accessor on an operand that starts at `start`. -/
def accessor (start : Nat) (operand : NodeId) (p : Part) : Lowering NodeId :=
  match p.label with
  | .memberAccess => do
    add ⟨start, p.span.stop⟩ (.member operand (← name p.inner[0]?))
  | .elementAccess => do
    add ⟨start, p.span.stop⟩ (.element operand (← exprOr p.span.stop p.inner[0]?))
  | .arguments => do
    add ⟨start, p.span.stop⟩ (.invoke operand (← arguments p))
  | _ => do
    fallback
    return operand

def accessors (span : Span) (inner : List Part) : Lowering NodeId := do
  let operand ← exprOr span.start inner[0]?
  (inner.drop 1).foldlM (accessor span.start) operand

end Lowering

def Label.binaryOp? : Label → Option BinaryOp
  | opAdd => some (.arithmetic .add)
  | opSub => some (.arithmetic .sub)
  | opMul => some (.arithmetic .mul)
  | opDiv => some (.arithmetic .div)
  | opMod => some (.arithmetic .mod)
  | opShl => some (.arithmetic .shl)
  | opShr => some (.arithmetic .shr)
  | opUshr => some (.arithmetic .ushr)
  | opBitAnd => some (.arithmetic .bitAnd)
  | opBitOr => some (.arithmetic .bitOr)
  | opBitXor => some (.arithmetic .bitXor)
  | opAnd => some (.logical .and)
  | opOr => some (.logical .or)
  | opEq => some (.logical .eq)
  | opNe => some (.logical .notEq)
  | opStrictEq => some (.logical .strictEq)
  | opStrictNe => some (.logical .strictNotEq)
  | opLt => some (.logical .less)
  | opLe => some (.logical .lessEq)
  | opGt => some (.logical .greater)
  | opGe => some (.logical .greaterEq)
  | opIn => some (.logical .isIn)
  | opInstanceof => some (.logical .instanceOf)
  | _ => none

def Label.unaryOp? : Label → Option UnaryOp
  | opDelete => some .delete
  | opVoid => some .void
  | opTypeof => some .typeOf
  | opIncr => some .increment
  | opDecr => some .decrement
  | opPos => some .plus
  | opNeg => some .minus
  | opBitNot => some .bitNot
  | opNot => some .not
  | _ => none

def Label.updateOp? : Label → Option UpdateOp
  | opIncr => some .increment
  | opDecr => some .decrement
  | _ => none

def Label.assignOp : Label → AssignOp
  | assignAdd => .compound .add
  | assignSub => .compound .sub
  | assignMul => .compound .mul
  | assignDiv => .compound .div
  | assignMod => .compound .mod
  | assignShl => .compound .shl
  | assignShr => .compound .shr
  | assignUshr => .compound .ushr
  | assignBitAnd => .compound .bitAnd
  | assignBitOr => .compound .bitOr
  | assignBitXor => .compound .bitXor
  | _ => .plain

namespace Lowering

/-- Apply an operator to the two operands on top of the stack. -/
def reduce (op : BinaryOp) : (operands : List NodeId) → Lowering (List NodeId)
  | rhs :: lhs :: operands => do
    let left ← spanAt lhs
    let right ← spanAt rhs
    let n ← add ⟨(left.map Span.start).getD 0, (right.map Span.stop).getD 0⟩ (.binary op lhs rhs)
    return n :: operands
  | _ => do
    fallback
    return []

/-- Apply the waiting operators of precedence at least `p`. -/
def reduceFrom (p : Nat) : (waiting : List BinaryOp) → (operands : List NodeId) →
    Lowering (List BinaryOp × List NodeId)
  | [], operands => return ([], operands)
  | op :: waiting, operands =>
    if op.precedence < p then return (op :: waiting, operands)
    else do reduceFrom p waiting (← reduce op operands)

/-- Read an operator or an operand of a chain. -/
def chainPart (held : List BinaryOp × List NodeId) (p : Part) :
    Lowering (List BinaryOp × List NodeId) :=
  match p.label.binaryOp? with
  | some op => do
    let (waiting, operands) ← reduceFrom op.precedence held.1 held.2
    return (op :: waiting, operands)
  | none => return (held.1, (← p.expr) :: held.2)

/-- The operand on top of the stack. -/
def top (offset : Nat) : (operands : List NodeId) → Lowering NodeId
  | n :: _ => return n
  | [] => missing offset

@[simp] theorem top_cons (offset : Nat) (n : NodeId) (operands : List NodeId) :
    top offset (n :: operands) = return n := rfl

/-- Apply the operators that are left. -/
def chainEnd (span : Span) (held : List BinaryOp × List NodeId) : Lowering NodeId := do
  top span.start (← reduceFrom 0 held.1 held.2).2

def chain (span : Span) (inner : List Part) : Lowering NodeId := do
  chainEnd span (← inner.foldlM chainPart ([], []))

/-- Operators in front of an operand reach to its end. The nearest one is applied first. -/
def unary (span : Span) (inner : List Part) : Lowering NodeId := do
  let ops := inner.filterMap fun p => p.label.unaryOp?.map fun op => (p.span.start, op)
  let operand := (inner.filter fun p => p.label.unaryOp?.isNone).getLast?
  let n ← exprOr span.start operand
  let covered ← spanAt n
  let stop := (covered.map Span.stop).getD span.start
  ops.reverse.foldlM (fun n (start, op) => add ⟨start, stop⟩ (.unary op n)) n

/-- What the pair with this label and these parts is lowered to as an expression. -/
def ofExpr (label : Label) (span : Span) (text : List Char) (inner : List Part) :
    Lowering NodeId :=
  match label with
  | .expression => do
    match ← inner.mapM Part.expr with
    | [] => missing span.start
    | [n] => return n
    | items => add span (.comma items)
  | .assignment => do
    let lhs ← exprOr span.start inner[0]?
    match inner[1]? with
    | none => return lhs
    | some op => do
      let rhs ← exprOr span.start inner[2]?
      add span (.assign op.label.assignOp lhs rhs)
  | .conditional => do
    let cond ← exprOr span.start inner[0]?
    match inner[1]? with
    | none => return cond
    | some yes => do
      let yes ← yes.expr
      let no ← exprOr span.start inner[2]?
      add span (.conditional cond yes no)
  | .binary => chain span inner
  | .unary => unary span inner
  | .postfixed => do
    let operand ← exprOr span.start inner[0]?
    match inner[1]? with
    | none => return operand
    | some p =>
      match p.label.updateOp? with
      | some op => add span (.update op operand)
      | none => do
        fallback
        return operand
  | .leftHandSide | .newCallee => accessors span inner
  | .newExpression => do
    let inner := significant inner
    let callee ← exprOr span.start inner[0]?
    let args ← match inner[1]? with
      | some args => arguments args
      | none => pure []
    add span (.construct callee args)
  | .functionExpression => function span inner
  | .group => do add span (.group (← exprOr span.start inner[0]?))
  | .identifier => add span (.identifier (Syntax.text text))
  | .thisLit => add span .this
  | .nullLit => add span .null
  | .booleanLit => add span (.literal (.boolean (text == "true".toList)))
  | .numberLit => add span (.literal (.number (Numeral.word text)))
  | .stringLit | .templateLit => add span (.literal (.string (quoted text)))
  | .regexLit => add span (.literal (.regex (Syntax.text text)))
  | .arrayLit => do add span (.array (← inner.mapM Part.expr))
  | .objectLit => do add span (.object (← inner.mapM property))
  | _ => missing span.start

/-- What the pair with this label and these parts is lowered to as a statement. -/
def ofStatement (label : Label) (span : Span) (text : List Char) (inner : List Part) :
    Lowering NodeId :=
  match label with
  | .block | .functionBody => do
    add span (.block (← (significant inner).mapM Part.statement))
  | .varStatement => do
    let docs ← take span.start
    match inner[0]? with
    | some list => varList docs list
    | none => missing span.start
  | .functionDeclaration => function span inner
  | .returnStatement => do
    add span (.returns (← ifAny Part.expr (significant inner)[0]?))
  | .ifStatement => do
    let inner := significant inner
    let cond ← exprOr span.start inner[0]?
    let yes ← statementOr span.start inner[1]?
    let no ← ifAny Part.statement inner[2]?
    add span (.branch cond yes no)
  | .forStatement => forStatement span inner
  | .whileStatement => do
    let inner := significant inner
    let cond ← exprOr span.start inner[0]?
    let body ← statementOr span.start inner[1]?
    add span (.whileLoop cond body)
  | .doWhileStatement => do
    let inner := significant inner
    let body ← statementOr span.start inner[0]?
    let cond ← exprOr span.start inner[1]?
    add span (.doWhile body cond)
  | .throwStatement => do
    add span (.throws (← exprOr span.start (significant inner)[0]?))
  | .tryStatement => tryStatement span inner
  | .breakStatement => add span .breaks
  | .continueStatement => add span .continues
  | .emptyStatement => add span .empty
  | .expressionStatement => do
    let docs ← take span.start
    let expr ← exprOr span.start inner[0]?
    giveAssigned docs expr
    add span (.statement expr)
  | _ => do
    fallback
    ofExpr label span text inner

variable {label : Label} (span : Span) (text : List Char) (inner : List Part)

theorem ofExpr_accessed (h : label = .leftHandSide ∨ label = .newCallee) :
    ofExpr label span text inner = accessors span inner := by
  rcases h with rfl | rfl <;> simp only [ofExpr]

theorem ofStatement_braced (h : label = .block ∨ label = .functionBody) :
    ofStatement label span text inner
      = (do add span (.block (← (significant inner).mapM Part.statement))) := by
  rcases h with rfl | rfl <;> simp only [ofStatement]

end Lowering

/-! ### Whole texts -/

/-- A part from the parts inside it. -/
def Part.of (label : Label) (span : Span) (text : List Char) (inner : List Part) : Part where
  label := label
  span := span
  text := text
  statement := Lowering.ofStatement label span text inner
  expr := Lowering.ofExpr label span text inner
  inner := inner

mutual

/-- The part of a pair. -/
def partOf : Pair Label → Part
  | ⟨label, span, text, inner⟩ => .of label span text (partsOf inner)

def partsOf : List (Pair Label) → List Part
  | [] => []
  | p :: ps => partOf p :: partsOf ps

end

namespace Lowering

/-- Lower the pairs of a whole text of the given size. -/
def program (size : Nat) : List (Pair Label) → Lowering NodeId
  | p :: _ => do
    add ⟨0, size⟩ (.program (← (significant (partOf p).inner).mapM Part.statement))
  | [] => do
    fallback
    add ⟨0, size⟩ (.program [])

end Lowering

/-- The pairs of a text, if it is a script. -/
def pairs? (cs : List Char) : Option (List (Pair Label)) :=
  (rules.traceText .pairs Syntax.program (callDepth cs) cs).map fun (_, _, ps) => ps

/-- The draft of a text, and its last node. -/
def lower? (cs : List Char) : Option (NodeId × Draft) :=
  (pairs? cs).map fun ps =>
    (Lowering.program (Text.byteSize cs) ps).run { pending := DocComments.scan cs }

end ScriptTypes.Script
