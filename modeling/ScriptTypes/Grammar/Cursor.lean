import ScriptTypes.Text.Basic

/-!
# Positions in a text

A cursor is what is left to read together with the byte offset at which it starts. A lexeme is a
way to take a beginning off a text; it returns the characters taken and those left, so that their
concatenation is the text it was given.
-/

namespace ScriptTypes

/-- The bytes from `start` up to, but not including, `stop`. -/
structure Span where
  start : Nat
  stop : Nat
  deriving DecidableEq, Repr

namespace Span

def size (s : Span) : Nat := s.stop - s.start

def contains (s : Span) (offset : Nat) : Bool := s.start ≤ offset && offset < s.stop

/-- The span as tables store it, with offsets of 32 bits. -/
def stored (s : Span) : Span := ⟨s.start.toUInt32.toNat, s.stop.toUInt32.toNat⟩

theorem stored_eq_self {s : Span} (hstart : s.start < UInt32.size) (hstop : s.stop < UInt32.size) :
    s.stored = s := by
  rw [stored, Nat.toUInt32_eq, Nat.toUInt32_eq, UInt32.toNat_ofNat_of_lt' hstart,
    UInt32.toNat_ofNat_of_lt' hstop]

end Span

namespace Grammar

structure Cursor where
  /-- What is left to read. -/
  rest : List Char
  /-- The number of bytes before it. -/
  offset : Nat
  deriving DecidableEq, Repr

namespace Cursor

/-- The beginning of a text. -/
def ofText (cs : List Char) : Cursor := ⟨cs, 0⟩

/-- The cursor after `taken` when `rest` is left. -/
def advance (c : Cursor) (taken rest : List Char) : Cursor := ⟨rest, c.offset + Text.byteSize taken⟩

end Cursor

/-- Takes a beginning off a text, or refuses. -/
abbrev Lexeme := List Char → Option (List Char × List Char)

namespace Lexeme

/-- The empty beginning of any text. -/
def nothing : Lexeme := fun cs => some ([], cs)

/-- The empty beginning of the empty text. -/
def atEnd : Lexeme
  | [] => some ([], [])
  | _ :: _ => none

/-- Exactly the given characters. -/
def exactly (word : List Char) : Lexeme := fun cs =>
  (Text.dropPrefix? word cs).map fun rest => (word, rest)

/-- One character that satisfies `p`. -/
def one (p : Char → Bool) : Lexeme
  | [] => none
  | c :: cs => if p c then some ([c], cs) else none

/-- All leading characters that satisfy `p`. -/
def run (p : Char → Bool) : Lexeme := fun cs => some (cs.takeWhile p, cs.dropWhile p)

/-- One lexeme right after another. -/
def andThen (a b : Lexeme) : Lexeme := fun cs =>
  match a cs with
  | none => none
  | some (x, rest) => (b rest).map fun (y, rest) => (x ++ y, rest)

/-- The first of two lexemes that takes something. -/
def orElse (a b : Lexeme) : Lexeme := fun cs =>
  match a cs with
  | some r => some r
  | none => b cs

/-- A lexeme, or nothing where it refuses. -/
def orNothing (a : Lexeme) : Lexeme := orElse a nothing

/-- At least one character that satisfies `p`. -/
def run1 (p : Char → Bool) : Lexeme := andThen (one p) (run p)

/-- A lexeme that the next character does not continue. -/
def unlessNext (a : Lexeme) (p : Char → Bool) : Lexeme := fun cs =>
  match a cs with
  | some (x, c :: rest) => if p c then none else some (x, c :: rest)
  | r => r

/-- Everything up to and including the first occurrence of `stop`. -/
def through (stop : List Char) : Lexeme
  | [] => if stop.isEmpty then some ([], []) else none
  | c :: cs =>
    match Text.dropPrefix? stop (c :: cs) with
    | some rest => some (stop, rest)
    | none => (through stop cs).map fun (x, rest) => (c :: x, rest)

end Lexeme

end Grammar

end ScriptTypes
