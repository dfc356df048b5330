import ScriptTypes.Script.Tree

/-!
# Chains of binary operators

The grammar reads operands and binary operators as a flat chain. The chain becomes a tree by
keeping the operands to the left that still wait for their right operand, innermost first: before
an operator is read, all waiting operators that bind at least as tightly are closed, so operators
of equal precedence group to the left.
-/

namespace ScriptTypes.Script.Chain

/-- An operator applied to two operands covers both. -/
def join (op : BinaryOp) (lhs rhs : Tree) : Tree :=
  .node ⟨lhs.span.start, rhs.span.stop⟩ (.binary op lhs rhs)

/-- Close the waiting operators of precedence at least `p` over the operand `cur`. -/
def close (p : Nat) : (waiting : List (Tree × BinaryOp)) → (cur : Tree) →
    List (Tree × BinaryOp) × Tree
  | [], cur => ([], cur)
  | (lhs, op) :: waiting, cur =>
    if p ≤ op.precedence then close p waiting (join op lhs cur)
    else ((lhs, op) :: waiting, cur)

/-- Read the rest of a chain after the operand `cur`. -/
def resolveFrom : (waiting : List (Tree × BinaryOp)) → (cur : Tree) →
    (rest : List (BinaryOp × Tree)) → Tree
  | waiting, cur, [] => (close 0 waiting cur).2
  | waiting, cur, (op, next) :: rest =>
    match close op.precedence waiting cur with
    | (waiting, lhs) => resolveFrom ((lhs, op) :: waiting) next rest

/-- The tree of a chain. -/
def resolve (first : Tree) (rest : List (BinaryOp × Tree)) : Tree := resolveFrom [] first rest

end ScriptTypes.Script.Chain
