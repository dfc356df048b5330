/-!
# TOML values

The values of a TOML document. Tables and arrays remember how they were written down, since that
decides what later lines may add to them; nothing else depends on it.
-/

namespace ScriptTypes.Toml

structure Date where
  year : Nat
  month : Nat
  day : Nat
  deriving DecidableEq, Repr

structure Time where
  hour : Nat
  minute : Nat
  second : Nat
  nanosecond : Nat := 0
  deriving DecidableEq, Repr

/-- The distance of a clock from universal time. -/
inductive Offset where
  | universal
  | minutes (distance : Int)
  deriving DecidableEq, Repr

/-- A day, a time of day, or both, with the offset of the clock if it is known. -/
structure Moment where
  date : Option Date := none
  time : Option Time := none
  offset : Option Offset := none
  deriving DecidableEq, Repr

/-- How a table was written down. -/
inductive TableKind where
  /-- Between braces, where it ends. -/
  | inline
  /-- Under a header of its own. -/
  | header
  /-- By a longer header that goes through it. -/
  | passed
  /-- By a dotted key. -/
  | dotted
  deriving DecidableEq, Repr

inductive Value where
  | string (text : String)
  | integer (value : Int)
  /-- A floating-point number, given by its word. -/
  | float (word : UInt64)
  | boolean (value : Bool)
  | moment (value : Moment)
  /-- An array; headers may add tables to it if it was written by such headers. -/
  | array (byHeaders : Bool) (items : List Value)
  | table (kind : TableKind) (entries : List (String × Value))

/-- The entries of a table. -/
abbrev Table := List (String × Value)

/-! ### Texts of moments -/

/-- A number with at least the given number of digits. -/
def padded (width n : Nat) : String :=
  let digits := Nat.toDigits 10 n
  String.ofList (List.replicate (width - digits.length) '0' ++ digits)

def Date.text (d : Date) : String :=
  padded 4 d.year ++ "-" ++ padded 2 d.month ++ "-" ++ padded 2 d.day

def Time.text (t : Time) : String :=
  let clock := padded 2 t.hour ++ ":" ++ padded 2 t.minute ++ ":" ++ padded 2 t.second
  if t.nanosecond = 0 then clock
  else
    let digits := (padded 9 t.nanosecond).toList.reverse.dropWhile (· == '0')
    clock ++ "." ++ String.ofList digits.reverse

def Offset.text : Offset → String
  | .universal => "Z"
  | .minutes d =>
    (if d < 0 then "-" else "+") ++ padded 2 (d.natAbs / 60) ++ ":" ++ padded 2 (d.natAbs % 60)

def Moment.text (m : Moment) : String :=
  let day := (m.date.map Date.text).getD ""
  let clock := (m.time.map Time.text).getD ""
  let mark := if m.date.isSome && m.time.isSome then "T" else ""
  day ++ mark ++ clock ++ (m.offset.map Offset.text).getD ""

end ScriptTypes.Toml
