import ScriptTypes.Script.Numeral
import ScriptTypes.Toml.Value

/-!
# Reading TOML: characters, keys and plain values

Readers take a beginning off a text. A reader that refuses takes nothing, so that another one can
be tried at the same place.
-/

namespace ScriptTypes.Toml

/-- Takes a beginning off a text, or refuses. -/
abbrev Reader := StateT (List Char) Option

namespace Reader

def peek? : Reader (Option Char) := do return (← get).head?

/-- One character that satisfies `p`. -/
def one (p : Char → Bool) : Reader Char := do
  match ← get with
  | c :: cs => if p c then set cs; return c else failure
  | [] => failure

/-- All leading characters that satisfy `p`. -/
def run (p : Char → Bool) : Reader (List Char) := do
  let cs ← get
  set (cs.dropWhile p)
  return cs.takeWhile p

/-- At least one character that satisfies `p`. -/
def run1 (p : Char → Bool) : Reader (List Char) := do
  let c ← one p
  return c :: (← run p)

/-- Exactly the given characters. -/
def word (text : String) : Reader Unit := do
  match Text.dropPrefix? text.toList (← get) with
  | some rest => set rest
  | none => failure

/-- What a reader takes, if it does not refuse. -/
def optionally {α : Type} (r : Reader α) : Reader (Option α) := some <$> r <|> pure none

/-- Exactly `n` characters that satisfy `p`. -/
def times (p : Char → Bool) : Nat → Reader (List Char)
  | 0 => return []
  | n + 1 => do
    let c ← one p
    return c :: (← times p n)

/-- What `r` takes as often as it takes something, at most `n` times. -/
def manyWithin {α : Type} (r : Reader α) : Nat → Reader (List α)
  | 0 => return []
  | n + 1 => do
    match ← optionally r with
    | some x => return x :: (← manyWithin r n)
    | none => return []

/-- What `r` takes, over and over. Each time takes a character at least. -/
def many {α : Type} (r : Reader α) : Reader (List α) := do
  manyWithin r (← get).length

/-- One or more items with `sep` between them. -/
def separated {α : Type} (r : Reader α) (sep : Reader Unit) : Reader (List α) := do
  let x ← r
  return x :: (← many (sep *> r))

end Reader

open Reader

/-! ### Blanks, comments and lines -/

def isBlank (c : Char) : Bool := c == ' ' || c == '\t'

def blanks : Reader Unit := discard (run isBlank)

/-- Characters that may stand in a comment: all but control characters other than tabs. -/
def isPlain (c : Char) : Bool := c == '\t' || (0x20 ≤ c.toNat && c.toNat != 0x7f)

def newline : Reader Unit := word "\n" <|> word "\r\n"

def comment : Reader Unit := do
  word "#"
  discard (run isPlain)

def endOfText : Reader Unit := do
  if (← get).isEmpty then return else failure

/-- The rest of a line that holds nothing more than a comment. -/
def lineEnd : Reader Unit := do
  blanks
  discard (optionally comment)
  newline <|> endOfText

/-- Blanks, line ends and comments, as they may stand between the items of an array. -/
def gap : Reader Unit := do
  let blank : Reader Unit := discard (run1 isBlank)
  discard (many (blank <|> newline <|> (comment *> newline)))

/-! ### Strings -/

def isHexDigit (c : Char) : Bool :=
  c.isDigit || ('a' ≤ c && c ≤ 'f') || ('A' ≤ c && c ≤ 'F')

/-- A character given by its number in hexadecimal digits. Surrogates are no characters. -/
def codePoint (digits : Nat) : Reader Char := do
  let n := Script.Numeral.spell 16 (← times isHexDigit digits)
  if n.isValidChar then return Char.ofNat n else failure

/-- A backslash with what it escapes. -/
def escaped : Reader Char := do
  word "\\"
  match ← one fun _ => true with
  | 'b' => return '\x08'
  | 't' => return '\t'
  | 'n' => return '\n'
  | 'f' => return '\x0c'
  | 'r' => return '\x0d'
  | '"' => return '"'
  | '\\' => return '\\'
  | 'u' => codePoint 4
  | 'U' => codePoint 8
  | _ => failure

def basicString : Reader (List Char) := do
  word "\""
  let cs ← many (one (fun c => isPlain c && c != '"' && c != '\\') <|> escaped)
  word "\""
  return cs

def literalString : Reader (List Char) := do
  word "'"
  let cs ← run fun c => isPlain c && c != '\''
  word "'"
  return cs

/-- A backslash at the end of a line, which drops it and all blanks and line ends after it. -/
def lineContinuation : Reader (List Char) := do
  word "\\"
  blanks
  newline
  discard (many (discard (one isBlank) <|> newline))
  return []

/-- One or two quotes with other content after them. -/
def innerQuotes (quote : Char) : Reader (List Char) := do
  let quotes ← run1 (· == quote)
  if quotes.length ≤ 2 then return quotes else failure

/-- The quotes that end a string of several lines. Up to two more in front belong to it. -/
def closingQuotes (quote : Char) : Reader (List Char) := do
  let quotes ← run1 (· == quote)
  if 3 ≤ quotes.length ∧ quotes.length ≤ 5 then return quotes.drop 3 else failure

/-- A string of several lines. A line end right after the opening quotes is not part of it. -/
def multiline (quote : Char) (content : Reader (List Char)) : Reader (List Char) := do
  word (String.ofList [quote, quote, quote])
  discard (optionally newline)
  let parts ← many (content <|> (do newline; return ['\n']) <|> innerQuotes quote)
  return parts.flatten ++ (← closingQuotes quote)

def multilineBasicString : Reader (List Char) :=
  multiline '"' (run1 (fun c => isPlain c && c != '"' && c != '\\')
    <|> lineContinuation <|> (do return [← escaped]))

def multilineLiteralString : Reader (List Char) :=
  multiline '\'' (run1 fun c => isPlain c && c != '\'')

def string : Reader String := do
  let cs ← multilineBasicString <|> basicString <|> multilineLiteralString <|> literalString
  return String.ofList cs

/-! ### Keys -/

def isKeyChar (c : Char) : Bool := c.isAlphanum || c == '_' || c == '-'

/-- The number of nested arrays, tables or parts of a key at which documents are refused. -/
def nestingLimit : Nat := 80

/-- The parts of a key. -/
def key : Reader (List String) := do
  let simple := basicString <|> literalString <|> run1 isKeyChar
  let parts ← separated (do blanks; let k ← simple; blanks; return String.ofList k) (word ".")
  if parts.length < nestingLimit then return parts else failure

/-! ### Numbers -/

/-- Digits with single underscores between them. -/
def digits (isDigit : Char → Bool) : Reader (List Char) := do
  let c ← one isDigit
  let more ← many (one isDigit <|> (word "_" *> one isDigit))
  return c :: more

def sign : Reader Bool :=
  (do word "-"; return true) <|> (do word "+"; return false) <|> return false

/-- The digits of a number without useless zeros in front. -/
def wholeDigits : Reader (List Char) := do
  if (← peek?) == some '0' then return [← one Char.isDigit]
  digits Char.isDigit

/-- A number of a base other than ten, below `2 ^ 63`. -/
def based (mark : String) (base : Nat) (isDigit : Char → Bool) : Reader Value := do
  word mark
  let n := Script.Numeral.spell base (← digits isDigit)
  if n < Nat.pow 2 63 then return .integer n else failure

/-- A whole number between `-2 ^ 63` and `2 ^ 63 - 1`. -/
def integer : Reader Value := do
  match (← get).take 2 with
  | ['0', 'x'] => based "0x" 16 isHexDigit
  | ['0', 'o'] => based "0o" 8 fun c => '0' ≤ c && c ≤ '7'
  | ['0', 'b'] => based "0b" 2 fun c => c == '0' || c == '1'
  | _ =>
    let negative ← sign
    let n := Script.Numeral.spell 10 (← wholeDigits)
    if negative then
      if n ≤ Nat.pow 2 63 then return .integer (-n) else failure
    else if n < Nat.pow 2 63 then return .integer n else failure

/-- The word of a number, or of its opposite. -/
def negated (negative : Bool) (w : UInt64) : UInt64 :=
  if negative then w ||| 0x8000000000000000 else w

def exponentPart : Reader Int := do
  discard (one fun c => c == 'e' || c == 'E')
  let negative ← sign
  let n := Script.Numeral.spell 10 (← digits Char.isDigit)
  return if negative then -n else n

/-- A number with a fraction, an exponent or both. One too large to represent is refused, unless
it is negative. -/
def decimal : Reader Value := do
  let negative ← sign
  let whole ← wholeDigits
  let fraction ← optionally (word "." *> digits Char.isDigit)
  let exponent ← optionally exponentPart
  if fraction.isNone && exponent.isNone then failure
  let fraction := fraction.getD []
  let m := Script.Numeral.spell 10 (whole ++ fraction)
  let w := Script.Numeral.decimalWord m (exponent.getD 0 - fraction.length)
  if w == Script.Numeral.infinity && !negative then failure
  return .float (negated negative w)

def specialFloat : Reader Value := do
  let negative ← sign
  let w ← (do word "inf"; return Script.Numeral.infinity)
    <|> (do word "nan"; return Script.Numeral.notANumber)
  return .float (negated negative w)

/-! ### Moments -/

/-- A number of exactly `count` digits between two bounds. -/
def field (count least greatest : Nat) : Reader Nat := do
  let n := Script.Numeral.spell 10 (← times Char.isDigit count)
  if least ≤ n ∧ n ≤ greatest then return n else failure

def isLeapYear (year : Nat) : Bool := year % 4 == 0 && (year % 100 != 0 || year % 400 == 0)

def daysIn (year month : Nat) : Nat :=
  if month = 2 then (if isLeapYear year then 29 else 28)
  else if month = 4 ∨ month = 6 ∨ month = 9 ∨ month = 11 then 30
  else 31

def date : Reader Date := do
  let year ← field 4 0 9999
  word "-"
  let month ← field 2 1 12
  word "-"
  let day ← field 2 1 (daysIn year month)
  return { year, month, day }

/-- A time of day. Digits beyond nanoseconds are dropped. -/
def time : Reader Time := do
  let hour ← field 2 0 23
  word ":"
  let minute ← field 2 0 59
  word ":"
  let second ← field 2 0 60
  let fraction ← optionally (word "." *> run1 Char.isDigit)
  let digits := (fraction.getD []).take 9
  let nanosecond := Script.Numeral.spell 10 digits * Nat.pow 10 (9 - digits.length)
  return { hour, minute, second, nanosecond }

def offset : Reader Offset := do
  match ← one fun c => c == 'Z' || c == 'z' || c == '+' || c == '-' with
  | '+' => return .minutes (← distance)
  | '-' => return .minutes (-(← distance))
  | _ => return .universal
where
  distance : Reader Int := do
    let hours ← field 2 0 23
    word ":"
    let minutes ← field 2 0 59
    return (hours * 60 + minutes : Nat)

def moment : Reader Value := do
  let dated : Reader Moment := do
    let day ← date
    let clock ← optionally do
      discard (one fun c => c == 'T' || c == 't' || c == ' ')
      return (← time, ← optionally offset)
    return { date := some day, time := clock.map Prod.fst, offset := clock.bind Prod.snd }
  let timed : Reader Moment := do return { time := some (← time) }
  return .moment (← dated <|> timed)

def boolean : Reader Value :=
  (do word "true"; return .boolean true) <|> (do word "false"; return .boolean false)

/-- A value without parts. -/
def scalar : Reader Value :=
  (do return .string (← string)) <|> moment <|> decimal <|> integer <|> specialFloat <|> boolean

end ScriptTypes.Toml
