import ScriptTypes.Grammar.Cursor
import ScriptTypes.Text.Letter

/-!
# The words of a script

The lexemes of the script language: blanks and comments, names and reserved words, numbers,
strings, templates and regular expressions.
-/

namespace ScriptTypes.Script.Lexeme

open Grammar (Lexeme)
open Grammar.Lexeme (nothing exactly one run run1 andThen orElse orNothing unlessNext through)

/-! ### Blanks and comments -/

def isLineEnd (c : Char) : Bool :=
  c == '\n' || c == '\r' || c == '\u2028' || c == '\u2029'

/-- The blanks of the language, which are not those of `Text.isBlank`. -/
def isSpace (c : Char) : Bool :=
  c == ' ' || c == '\t' || isLineEnd c || c == '\x0b' || c == '\x0c' || c == '\u00a0'
    || c == '\ufeff'

/-- A comment up to its closing mark. -/
def blockComment : Lexeme := andThen (exactly ['/', '*']) (through ['*', '/'])

/-- A comment up to the end of its line. -/
def lineComment : Lexeme := andThen (exactly ['/', '/']) (run (!isLineEnd ·))

def comment : Lexeme := orElse blockComment lineComment

/-- A comment for documentation: it starts with two stars and is not empty. -/
def docComment : Lexeme :=
  andThen (unlessNext (exactly ['/', '*', '*']) (· == '/')) (through ['*', '/'])

/-- At most `n` comments, each with the blanks after it. -/
def commentsWithin : (n : Nat) → List Char → List Char × List Char
  | 0, cs => ([], cs)
  | n + 1, cs =>
    match comment cs with
    | none => ([], cs)
    | some (taken, rest) =>
      match commentsWithin n (rest.dropWhile isSpace) with
      | (more, rest') => (taken ++ rest.takeWhile isSpace ++ more, rest')

/-- The blanks and comments in front of a text, and what follows them. Where no slash follows the
blanks there is no comment to look for. -/
def blanks (cs : List Char) : List Char × List Char :=
  match cs.dropWhile isSpace with
  | '/' :: rest =>
    match commentsWithin (rest.length + 1) ('/' :: rest) with
    | (more, rest) => (cs.takeWhile isSpace ++ more, rest)
  | rest => (cs.takeWhile isSpace, rest)

/-! ### Names -/

def isNameStart (c : Char) : Bool := c.isAlpha || c == '_' || c == '$' || Text.isLetter c

def isNameChar (c : Char) : Bool := isNameStart c || c.isDigit

/-- A word that no further name character continues. -/
def word (w : List Char) : Lexeme := unlessNext (exactly w) isNameChar

/-- The reserved words, which name no variable. -/
def reserved : List String :=
  ["break", "case", "catch", "const", "continue", "default", "delete", "do", "else", "false",
   "finally", "for", "function", "if", "instanceof", "in", "let", "new", "null", "return",
   "switch", "this", "throw", "true", "try", "typeof", "var", "void", "while", "with"]

/-- The name of a property, which may be reserved. -/
def propertyName : Lexeme := andThen (one isNameStart) (run isNameChar)

/-- The name of a variable. -/
def identifier : Lexeme := fun cs =>
  match propertyName cs with
  | some (name, rest) => if reserved.contains (String.ofList name) then none else some (name, rest)
  | none => none

/-! ### Literals -/

def isDigit (c : Char) : Bool := c.isDigit

def isHexDigit (c : Char) : Bool :=
  c.isDigit || ('a' ≤ c && c ≤ 'f') || ('A' ≤ c && c ≤ 'F')

def hexNumber : Lexeme :=
  andThen (exactly ['0']) (andThen (one fun c => c == 'x' || c == 'X') (run1 isHexDigit))

def exponent : Lexeme :=
  andThen (one fun c => c == 'e' || c == 'E')
    (andThen (orNothing (one fun c => c == '+' || c == '-')) (run1 isDigit))

def decimalNumber : Lexeme :=
  andThen
    (orElse (andThen (run1 isDigit) (orNothing (andThen (exactly ['.']) (run isDigit))))
      (andThen (exactly ['.']) (run1 isDigit)))
    (orNothing exponent)

def number : Lexeme := orElse hexNumber decimalNumber

/-- The characters up to one that `stops` and that no backslash escapes. -/
def body (stops : Char → Bool) : List Char → List Char × List Char
  | [] => ([], [])
  | '\\' :: c :: cs =>
    match body stops cs with
    | (taken, rest) => ('\\' :: c :: taken, rest)
  | c :: cs =>
    if stops c then ([], c :: cs)
    else
      match body stops cs with
      | (taken, rest) => (c :: taken, rest)

/-- A body between two equal marks. -/
def between (mark : Char) (stops : Char → Bool) : Lexeme
  | [] => none
  | c :: cs =>
    if c = mark then
      match body stops cs with
      | (taken, c :: rest) => if c = mark then some (mark :: taken ++ [mark], rest) else none
      | (_, []) => none
    else none

/-- A string ends on its line, unless the line end is escaped. -/
def quoted (mark : Char) : Lexeme :=
  between mark fun c => c == mark || c == '\\' || isLineEnd c

def string : Lexeme := orElse (quoted '\x22') (quoted '\x27')

/-- A template may run over several lines. -/
def template : Lexeme := between '\x60' (· == '\x60')

/-- The inside of a regular expression up to its closing slash, which is not one in a class of
characters. -/
def regexBody : (inClass : Bool) → Lexeme
  | _, [] => none
  | inClass, '\\' :: c :: cs => (regexBody inClass cs).map fun (t, r) => ('\\' :: c :: t, r)
  | false, c :: cs =>
    if c = '/' then some ([], c :: cs)
    else if c = '\\' || isLineEnd c then none
    else (regexBody (c == '[') cs).map fun (t, r) => (c :: t, r)
  | true, c :: cs =>
    if c = '\\' || isLineEnd c then none
    else (regexBody (c != ']') cs).map fun (t, r) => (c :: t, r)

def regex : Lexeme :=
  andThen (unlessNext (exactly ['/']) fun c => c == '/' || c == '*')
    (andThen (regexBody false) (andThen (exactly ['/']) (run isNameChar)))

end ScriptTypes.Script.Lexeme
