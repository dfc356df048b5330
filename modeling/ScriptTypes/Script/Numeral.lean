import ScriptTypes.Text.Basic

/-!
# Number literals

The value of a number literal is a binary floating-point number of 64 bits, given by its word.
Decimal literals are rounded to the nearest such number, and of two equally near ones to the one
with an even word. Hexadecimal literals are integers below `2 ^ 63`; a larger one has no value and
gives the word for "not a number".
-/

namespace ScriptTypes.Script.Numeral

/-- The word of the value that is not a number. -/
def notANumber : UInt64 := 0x7ff8000000000000

/-- The word of positive infinity. -/
def infinity : UInt64 := 0x7ff0000000000000

/-- The quotient rounded to the nearest integer, halves to the even neighbour. -/
def divNearest (num den : Nat) : Nat :=
  let q := num / den
  let r := num % den
  if 2 * r < den then q
  else if den < 2 * r then q + 1
  else if q % 2 = 0 then q else q + 1

/-- `num / den` scaled by `2 ^ (-e)`, as a quotient of natural numbers. -/
def scaled (num den : Nat) (e : Int) : Nat × Nat :=
  match e with
  | .ofNat k => (num, den * Nat.pow 2 k)
  | .negSucc k => (num * Nat.pow 2 (k + 1), den)

/-- The exponent `e` for which `num / den` lies between `2 ^ 52` and `2 ^ 53` units of `2 ^ e`,
but never below the exponent of the least positive number. -/
def unitExponent (num den : Nat) : Int :=
  let guess : Int := (num.log2 : Int) - (den.log2 : Int) - 52
  let (n, d) := scaled num den guess
  let e := if n / d < Nat.pow 2 52 then guess - 1 else guess
  max e (-1074)

/-- The word nearest to `num / den`, for a positive quotient. -/
def nearestWord (num den : Nat) : UInt64 :=
  let e := unitExponent num den
  let (n, d) := scaled num den e
  let m := divNearest n d
  if e = -1074 then m.toUInt64
  else
    let word := (e + 1075).toNat * Nat.pow 2 52 + (m - Nat.pow 2 52)
    if infinity.toNat ≤ word then infinity else word.toUInt64

/-- The value of a digit in any base up to sixteen. -/
def digitValue (c : Char) : Nat :=
  if c.isDigit then c.toNat - '0'.toNat
  else if 'a' ≤ c then c.toNat - 'a'.toNat + 10
  else c.toNat - 'A'.toNat + 10

/-- The number that digits spell in a base. -/
def spell (base : Nat) (digits : List Char) : Nat :=
  digits.foldl (fun n c => n * base + digitValue c) 0

/-- The word of a hexadecimal literal, from its digits. -/
def hexWord (digits : List Char) : UInt64 :=
  let n := spell 16 digits
  if n = 0 then 0 else if n < Nat.pow 2 63 then nearestWord n 1 else notANumber

/-- The word of `m * 10 ^ e`. Numbers far beyond the range need no computation. -/
def decimalWord (m : Nat) (e : Int) : UInt64 :=
  if m = 0 then 0
  else
    let magnitude := (Nat.toDigits 10 m).length + e
    if 400 < magnitude then infinity
    else if magnitude < -400 then 0
    else
      match e with
      | .ofNat k => nearestWord (m * Nat.pow 10 k) 1
      | .negSucc k => nearestWord m (Nat.pow 10 (k + 1))

/-- The exponent part of a decimal literal, without its mark. -/
def exponent : List Char → Int
  | '-' :: digits => -(spell 10 digits : Int)
  | '+' :: digits => spell 10 digits
  | digits => spell 10 digits

/-- The word of a literal's text. -/
def word : List Char → UInt64
  | '0' :: 'x' :: digits => hexWord digits
  | '0' :: 'X' :: digits => hexWord digits
  | cs =>
    let (mantissa, mark) := cs.span fun c => c != 'e' && c != 'E'
    let (whole, point) := mantissa.span (· != '.')
    let fraction := point.drop 1
    decimalWord (spell 10 (whole ++ fraction)) (exponent (mark.drop 1) - fraction.length)

end ScriptTypes.Script.Numeral
