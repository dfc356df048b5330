import ScriptTypes.Doc.Reader
import ScriptTypes.Script.Lexeme

/-!
# The documentation comments of a script

Comments are found by a scan of their own over the raw text, which passes over other comments,
strings and templates. A documentation comment belongs to the construct that starts at the first
character after it that is not blank.
-/

namespace ScriptTypes.Script

/-- A documentation comment and the offset of what it documents. -/
structure DocComment where
  target : Nat
  text : String
  deriving DecidableEq, Repr

namespace DocComments

/-- What the scan passes over in one step, unless it is a single character. -/
def skipped : Grammar.Lexeme :=
  Grammar.Lexeme.orElse Lexeme.comment (Grammar.Lexeme.orElse Lexeme.string Lexeme.template)

/-- The comments of a text that starts at `offset`, of which the first `passed` characters belong
to something that was passed over already. -/
def scanFrom : (passed offset : Nat) → List Char → List DocComment
  | _, _, [] => []
  | passed + 1, offset, c :: cs => scanFrom passed (offset + c.utf8Size) cs
  | 0, offset, c :: cs =>
    match Lexeme.docComment (c :: cs) with
    | some (taken, rest) =>
      let target := offset + Text.byteSize taken + Text.byteSize (rest.takeWhile Text.isBlank)
      ⟨target, String.ofList taken⟩
        :: scanFrom (taken.length - 1) (offset + c.utf8Size) cs
    | none =>
      match skipped (c :: cs) with
      | some (taken, _) => scanFrom (taken.length - 1) (offset + c.utf8Size) cs
      | none => scanFrom 0 (offset + c.utf8Size) cs

/-- The documentation comments of a text in their order. -/
def scan (cs : List Char) : List DocComment := scanFrom 0 0 cs

/-- Of several comments with one target the last one counts. -/
def at? (comments : List DocComment) (target : Nat) : Option DocComment :=
  comments.reverse.find? (·.target == target)

/-- The block that documents what starts at `target`. A comment that cannot be read is left out. -/
def blockAt? (comments : List DocComment) (target : Nat) : Option Doc.Block :=
  (at? comments target).bind fun c => Doc.read? c.text

/-- The comments that count, by target. -/
def byTarget (comments : List DocComment) : List DocComment :=
  let targets := (comments.map DocComment.target).eraseDups.mergeSort (· ≤ ·)
  targets.filterMap (at? comments)

end DocComments

end ScriptTypes.Script
