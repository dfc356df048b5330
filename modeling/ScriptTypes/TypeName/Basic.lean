import ScriptTypes.Text.Basic

/-!
# Type names

A type is known by its name, a text. Names have some structure of their own:

* `Array<T>` is an array with elements of type `T`, also accepted as `T[]`;
* `Class<T>` is the static side of `T`;
* `Function<R|S>` is a function that returns an `R` or an `S`;
* `Function(P,Q):R|S` is a function together with its parameter types.

A member of a list of alternatives that holds a `|` of its own, such as a signature with two return
types, stands in parentheses: `Function<(Function():Number|String)|Boolean>`.

This module cuts names at their brackets and separators and builds the compound names. It works on
lists of characters; `ScriptTypes.TypeName.Canonical` gives each name its canonical form.
-/

namespace ScriptTypes.TypeName

/-! ### Names with a meaning of their own -/

def array : List Char := "Array".toList
def boolean : List Char := "Boolean".toList
def class_ : List Char := "Class".toList
def function : List Char := "Function".toList
def number : List Char := "Number".toList
def object : List Char := "Object".toList
def regExp : List Char := "RegExp".toList
def string : List Char := "String".toList

/-! ### Cutting a name -/

/-- The bracket depth after a character. Both kinds of brackets share one depth, and a closing
bracket too many makes it negative. -/
def depthAfter (d : Int) (c : Char) : Int :=
  if c = '<' ∨ c = '(' then d + 1
  else if c = '>' ∨ c = ')' then d - 1
  else d

/-- Cut a text at the separators that stand at bracket depth zero, starting from depth `d`, when
the characters in `piece`, last one first, precede it. A bracket is no separator. -/
def splitFrom (sep : Char → Bool) : (d : Int) → (piece : List Char) → List Char → List (List Char)
  | _, piece, [] => [piece.reverse]
  | d, piece, c :: cs =>
    if d = 0 ∧ sep c then piece.reverse :: splitFrom sep d [] cs
    else splitFrom sep (depthAfter d c) (c :: piece) cs

/-- Cut a text at its top-level separators. There is always at least one piece. -/
def splitTop (sep : Char → Bool) (cs : List Char) : List (List Char) :=
  splitFrom sep 0 [] cs

/-- The separator between alternatives. -/
def isBar (c : Char) : Bool := c == '|'

/-- The separator between parameters. -/
def isComma (c : Char) : Bool := c == ','

/-- Alternatives may also be separated by commas where no parameter list can stand. -/
def isBarOrComma (c : Char) : Bool := isBar c || isComma c

/-- The text up to the bracket `close` that ends a group with `d` further groups open inside it,
and the text after that bracket, when the characters in `inner`, last one first, precede it. Only
brackets of the one kind count. -/
def closeFrom? (openC close : Char) :
    (d : Nat) → (inner : List Char) → List Char → Option (List Char × List Char)
  | _, _, [] => none
  | d, inner, c :: cs =>
    if c = openC then closeFrom? openC close (d + 1) (c :: inner) cs
    else if c = close then
      match d with
      | 0 => some (inner.reverse, cs)
      | d + 1 => closeFrom? openC close d (c :: inner) cs
    else closeFrom? openC close d (c :: inner) cs

/-- The inside of a group whose opening bracket precedes the text, and what follows the group. -/
def splitAtClose (openC close : Char) (cs : List Char) : Option (List Char × List Char) :=
  closeFrom? openC close 0 [] cs

/-- `(T)` without its parentheses, when they enclose the whole name. -/
def unwrapGroup? : List Char → Option (List Char)
  | '(' :: cs =>
    match splitAtClose '(' ')' cs with
    | some (inner, []) => some inner
    | _ => none
  | _ => none

/-- The opening brackets that end the plain part of a name. -/
def opensArguments (c : Char) : Bool := c == '<' || c == '('

/-! ### Building a name -/

/-- Does a separator stand at bracket depth zero, starting from depth `d`? -/
def anyTopFrom (sep : Char → Bool) : (d : Int) → List Char → Bool
  | _, [] => false
  | d, c :: cs => (d == 0 && sep c) || anyTopFrom sep (depthAfter d c) cs

/-- Does the name list several alternatives at top level? -/
def hasTopUnion (cs : List Char) : Bool := anyTopFrom isBar 0 cs

theorem splitFrom_ne_nil (sep : Char → Bool) (d : Int) (piece cs : List Char) :
    splitFrom sep d piece cs ≠ [] := by
  induction cs generalizing d piece with
  | nil => simp [splitFrom]
  | cons c cs ih =>
    unfold splitFrom
    split
    · simp
    · exact ih _ _

theorem one_lt_length_splitFrom (sep : Char → Bool) (d : Int) (piece cs : List Char) :
    1 < (splitFrom sep d piece cs).length ↔ anyTopFrom sep d cs := by
  induction cs generalizing d piece with
  | nil => simp [splitFrom, anyTopFrom]
  | cons c cs ih =>
    unfold splitFrom anyTopFrom
    split
    · rename_i h
      simpa [h] using List.length_pos_iff.2 (splitFrom_ne_nil sep 0 [] cs)
    · rename_i h
      rw [ih]
      simp_all

/-- A name lists several alternatives if cutting it at its bars gives several pieces. -/
theorem hasTopUnion_iff (cs : List Char) : hasTopUnion cs ↔ 1 < (splitTop isBar cs).length :=
  (one_lt_length_splitFrom isBar 0 [] cs).symm

/-- A member of a list of alternatives, in parentheses if it is such a list itself. -/
def groupMember (cs : List Char) : List Char :=
  if hasTopUnion cs then '(' :: cs ++ [')'] else cs

/-- One name for a list of alternatives. -/
def union (members : List (List Char)) : List Char :=
  Text.joinWith ['|'] (members.map groupMember)

/-- A base name with one argument in angle brackets. -/
def generic (base argument : List Char) : List Char :=
  base ++ '<' :: argument ++ ['>']

def arrayOf (element : List Char) : List Char := generic array (groupMember element)

def classOf (base : List Char) : List Char := generic class_ (groupMember base)

/-- A function that returns one of `returns`; the bare name if it returns nothing. -/
def functionOf (returns : List (List Char)) : List Char :=
  if returns.isEmpty then function else generic function (union returns)

/-- A callable `base` with its parameter types as they are, and its return types if any. -/
def signature (base : List Char) (params returns : List (List Char)) : List Char :=
  let head := base ++ '(' :: Text.joinWith [','] params ++ [')']
  if returns.isEmpty then head else head ++ ':' :: union returns

def functionSignature (params returns : List (List Char)) : List Char :=
  signature function params returns

/-! ### Recognising a name -/

/-- The argument `A` of a name `base<A>`, unless it is empty. -/
def genericArgument? (base name : List Char) : Option (List Char) := do
  let arg ← Text.dropSuffix? ['>'] (← Text.dropPrefix? ['<'] (← Text.dropPrefix? base name))
  if arg.isEmpty then none else some arg

def isGenericArray (name : List Char) : Bool := (genericArgument? array name).isSome

def isArray (name : List Char) : Bool := name == array || isGenericArray name

def isClass (name : List Char) : Bool := (genericArgument? class_ name).isSome

/-- The bare function name and both of its encodings. -/
def isFunction (name : List Char) : Bool :=
  match Text.dropPrefix? function name with
  | some [] => true
  | some (c :: _) => opensArguments c
  | none => false

/-- A generic argument without the parentheses that `groupMember` put around it. -/
def ungroup (arg : List Char) : List Char := (unwrapGroup? arg).getD arg

/-- `Array<T>` gives `T`; the bare array name has no element type. -/
def arrayElement? (name : List Char) : Option (List Char) :=
  (genericArgument? array name).map ungroup

/-- `Class<T>` gives `T`. -/
def classBase? (name : List Char) : Option (List Char) :=
  (genericArgument? class_ name).map ungroup

/-- The name before its generic arguments or parameters. A name that starts with a bracket is its
own base. -/
def base (name : List Char) : List Char :=
  match name.takeWhile (!opensArguments ·) with
  | [] => name
  | plain => plain

end ScriptTypes.TypeName
