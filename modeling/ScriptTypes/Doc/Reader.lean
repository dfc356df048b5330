import ScriptTypes.Doc.Block
import ScriptTypes.Grammar.Cursor

/-!
# Reading documentation comments

A comment is first stripped of its delimiters and of the star in front of each line. What is left
starts with free text or with a tag, and every further tag starts on a line of its own with an `@`.
A tag that does not have the form its name asks for is kept as a tag of another kind. A comment
that goes on behind its last tag cannot be read; `ScriptTypes.Proofs.Doc.Segments` shows that there
is none.
-/

namespace ScriptTypes.Doc

open Grammar (Lexeme)

/-! ### Stripping -/

/-- A line without the blanks around it and without one leading star. -/
def stripLine (line : List Char) : List Char :=
  let line := Text.trim line
  Text.trim ((Text.dropPrefix? ['*'] line).getD line)

/-- The content of a comment, with or without its delimiters. -/
def strip (comment : List Char) : List Char :=
  let body := Text.trim comment
  let body := (Text.dropPrefix? ['/', '*', '*'] body).getD body
  let body := (Text.dropSuffix? ['*', '/'] body).getD body
  Text.trim (Text.joinWith ['\n'] ((Text.lines body).map stripLine))

/-! ### Characters -/

def isTagChar (c : Char) : Bool := c.isAlphanum || c == '_'

def isNameChar (c : Char) : Bool := c.isAlphanum || c == '_' || c == '$' || c == '.'

def isGap (c : Char) : Bool := c == ' ' || c == '\t'

def isNewline (c : Char) : Bool := c == '\n' || c == '\r'

/-- Does a tag start here? -/
def startsTag : List Char → Bool
  | '@' :: c :: _ => isTagChar c
  | _ => false

/-- Do line ends stand here, with a tag right after them? -/
def startsBreak (cs : List Char) : Bool :=
  match cs with
  | [] => false
  | c :: _ => isNewline c && startsTag (cs.dropWhile isNewline)

/-- The text up to the line ends in front of the next tag, and what follows. -/
def takeText : List Char → List Char × List Char
  | [] => ([], [])
  | c :: cs =>
    if startsBreak (c :: cs) then ([], c :: cs)
    else
      match takeText cs with
      | (text, rest) => (c :: text, rest)

/-! ### Tags

Each reader takes the text after its tag's name. -/

/-- A text as it is kept, without the blanks around it. -/
def kept (cs : List Char) : String := String.ofList (Text.trim cs)

/-- The types between balanced braces. -/
def types? : List Char → Option (List TypeName × List Char)
  | '{' :: cs =>
    (TypeName.splitAtClose '{' '}' cs).map fun (inner, rest) =>
      (splitTypeUnion (String.ofList inner), rest)
  | _ => none

/-- A name right here. -/
def name? (cs : List Char) : Option (String × List Char) :=
  (Lexeme.run1 isNameChar cs).map fun (taken, rest) => (String.ofList taken, rest)

/-- `[name]` or `[name=default]`. -/
def optionalName? : List Char → Option (String × List Char)
  | '[' :: cs => do
    let (name, rest) ← name? (cs.dropWhile isGap)
    match rest.dropWhile isGap with
    | ']' :: rest => some (name, rest)
    | '=' :: rest =>
      match rest.dropWhile (· != ']') with
      | ']' :: rest => some (name, rest)
      | _ => none
    | _ => none
  | _ => none

/-- A parameter's name in one of its three forms. -/
def paramName? (cs : List Char) : Option ((Usage × String) × List Char) :=
  match optionalName? cs with
  | some (name, rest) => some ((.optional, name), rest)
  | none =>
    match (Text.dropPrefix? ['.', '.', '.'] cs).bind name? with
    | some (name, rest) => some ((.oneOrMore, name), rest)
    | none => (name? cs).map fun (name, rest) => ((.required, name), rest)

/-- What follows the name of a tag: nothing that would continue the name, and then the blanks of
the line are skipped. -/
def afterName? (name : String) (cs : List Char) : Option (List Char) :=
  match Text.dropPrefix? name.toList cs with
  | some [] => some []
  | some (c :: rest) => if isTagChar c then none else some ((c :: rest).dropWhile isGap)
  | none => none

def paramTag? (cs : List Char) : Option (Tag × List Char) := do
  let cs ← afterName? "@param" cs
  let (types, cs) := match types? cs with
    | some (types, rest) => (types, rest.dropWhile isGap)
    | none => ([], cs)
  let ((usage, name), cs) ← paramName? cs
  let (text, rest) := takeText cs
  some (.param name types usage (kept text), rest)

def resultTag? (cs : List Char) : Option (Tag × List Char) := do
  let cs ← (afterName? "@returns" cs).or (afterName? "@return" cs)
  let (types, cs) := (types? cs).getD ([], cs)
  let (text, rest) := takeText cs
  some (.result types (kept text), rest)

/-- A type without braces ends at the first gap. -/
def bareType? (cs : List Char) : Option (List TypeName × List Char) :=
  (Lexeme.run1 (fun c => !isGap c && !isNewline c) cs).map fun (taken, rest) =>
    (splitTypeUnion (String.ofList taken), rest)

def typeTag? (cs : List Char) : Option (Tag × List Char) := do
  let cs ← afterName? "@type" cs
  let (types, cs) ← (types? cs).or (bareType? cs)
  let (text, rest) := takeText cs
  some (.type types (kept text), rest)

/-- Any tag, known by its name alone. -/
def otherTag? : List Char → Option (Tag × List Char)
  | '@' :: cs =>
    (Lexeme.run1 isTagChar cs).map fun (name, rest) =>
      match takeText rest with
      | (text, rest) => (.other (String.ofList name) (kept text), rest)
  | _ => none

/-- The tag that starts here, in the first form that fits. -/
def tag? (cs : List Char) : Option (Tag × List Char) :=
  (paramTag? cs).or ((resultTag? cs).or ((typeTag? cs).or (otherTag? cs)))

/-- Line ends and a tag right after them. -/
def nextTag? : List Char → Option (Tag × List Char)
  | [] => none
  | c :: cs => if isNewline c then tag? (cs.dropWhile isNewline) else none

/-- As many further tags as there are, at most `n`, and what is left. -/
def tagsWithin : (n : Nat) → List Char → List Tag × List Char
  | 0, cs => ([], cs)
  | n + 1, cs =>
    match nextTag? cs with
    | none => ([], cs)
    | some (t, rest) =>
      match tagsWithin n rest with
      | (ts, rest) => (t :: ts, rest)

/-- What a stripped comment begins with: a tag, or else the free text. -/
def opening (cs : List Char) : Block × List Char :=
  match tag? cs with
  | some (t, rest) => ({ tags := [t] }, rest)
  | none =>
    match takeText cs with
    | (text, rest) => ({ text := kept text }, rest)

/-- The block that a stripped comment holds, if nothing but line ends is left behind its last tag.
No comment has more tags than characters. -/
def readStripped? (cs : List Char) : Option Block :=
  match opening cs with
  | (b, rest) =>
    match tagsWithin rest.length rest with
    | (ts, rest) => if rest.all isNewline then some { b with tags := b.tags ++ ts } else none

/-- The block that a comment holds. -/
def read? (comment : String) : Option Block := readStripped? (strip comment.toList)

/-- The block of a comment, for callers that take a comment that cannot be read for an empty one. -/
def read (comment : String) : Block := (read? comment).getD {}

end ScriptTypes.Doc
