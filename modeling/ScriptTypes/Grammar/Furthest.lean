import ScriptTypes.Grammar.Cursor

/-!
# The furthest failure

A text that does not match is reported at the furthest offset at which a labelled rule failed,
with the labels of the rules that were expected there. A rule whose parts failed where it started
stands for all of them, unless a single part failed: then that part is the better name.
-/

namespace ScriptTypes.Grammar

/-- The furthest offset at which a labelled rule failed so far, and the labels expected there. -/
structure Furthest (ℓ : Type) where
  offset : Nat := 0
  expected : Array ℓ := #[]

namespace Furthest

variable {ℓ : Type}

/-- The number of labels expected at `offset`. -/
def countAt (f : Furthest ℓ) (offset : Nat) : Nat :=
  if f.offset = offset then f.expected.size else 0

/-- The rule `label` failed at `offset`, where `before` labels were expected when it started.
A single label added by its parts stays; otherwise the rule takes the place of all of them. An
offset behind the furthest one changes nothing. -/
def fail (f : Furthest ℓ) (label : ℓ) (offset before : Nat) : Furthest ℓ :=
  if f.countAt offset = before + 1 then f
  else if offset = f.offset then { f with expected := (f.expected.shrink before).push label }
  else if f.offset < offset then ⟨offset, #[label]⟩
  else f

end Furthest

end ScriptTypes.Grammar
