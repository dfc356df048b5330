import ScriptTypes.TypeName.Basic

/-!
# Canonical type names

Names arrive from documentation, index files and literals in many spellings. The canonical form
removes blanks and the markers of documentation (`?T`, `!T`, `...T`, `T=`), replaces the common
lower-case names, writes `T[]` as `Array<T>`, and lists alternatives once each in the order of
their first occurrence. After that two names denote the same type exactly when they are equal
texts. A name that makes no sense is kept as it is, and one that denotes no type has no form.
-/

namespace ScriptTypes.TypeName

/-- The canonical name for a plain name, `none` for names that denote no type. -/
def alias? (name : List Char) : Option (List Char) :=
  match String.ofList name with
  | "" | "void" => none
  | "string" => some string
  | "number" | "int" | "integer" | "float" | "double" => some number
  | "boolean" | "bool" => some boolean
  | "object" | "any" | "mixed" | "*" => some object
  | "function" => some function
  | "array" => some array
  | "regexp" => some regExp
  | _ => some name

/-- The markers in front of a documented name. -/
def isMarker (c : Char) : Bool := c == '?' || c == '!' || c == '.'

/-- The name without the markers of documentation: leading `?`, `!` and `.`, trailing `=`. -/
def dropMarkers (cs : List Char) : List Char :=
  Text.dropRightWhile (· == '=') (cs.dropWhile isMarker)

/-- Append the names that are not in the list yet, in order. -/
def addNew (out : List (List Char)) (names : List (List Char)) : List (List Char) :=
  names.foldl (fun out n => if out.contains n then out else out ++ [n]) out

/-! ### How a name is cut -/

/-- What a name without blanks is, once its markers are gone. -/
inductive Shape where
  /-- Nothing is left. -/
  | nothing
  /-- A name in parentheses. -/
  | group (inner : List Char)
  /-- An element type with the array suffix. -/
  | array (element : List Char)
  /-- A name without arguments. -/
  | plain (name : List Char)
  /-- A name that makes no sense. The parameters of a base name are read before it is known that
  neither the end of the name nor a colon follows them. -/
  | kept (name : List Char) (params : Option (List Char))
  /-- A base name with arguments in angle brackets. -/
  | generic (base inner : List Char)
  /-- A base name with parameters, and return types if a colon follows. -/
  | callable (base inner : List Char) (returns : Option (List Char))
  deriving DecidableEq, Repr

/-- The bracket that closes an opening one. -/
def closing (bracket : Char) : Char := if bracket == '<' then '>' else ')'

/-- The shape of a name with arguments or parameters: the base name in front of the opening
bracket, and what follows it. -/
def compoundShape (name plain : List Char) (bracket : Char) (tail : List Char) : Shape :=
  match splitAtClose bracket (closing bracket) tail, alias? plain with
  | some (inner, rest), some base =>
    match bracket == '<', rest with
    | true, [] => .generic base inner
    | false, [] => .callable base inner none
    | false, ':' :: returns => .callable base inner (some returns)
    | true, _ :: _ => .kept name none
    | false, _ :: _ => .kept name (some inner)
  | _, _ => .kept name none

/-- The shape of a name without markers. -/
def shapeOf (name : List Char) : Shape :=
  if name.isEmpty then .nothing
  else if let some inner := unwrapGroup? name then .group inner
  else if let some element := Text.dropSuffix? ['[', ']'] name then .array element
  else
    match name.span (!opensArguments ·) with
    | (_, []) => .plain name
    | (plain, bracket :: tail) => compoundShape name plain bracket tail

def shape (raw : List Char) : Shape := shapeOf (dropMarkers raw)

/-! ### Putting the canonical form together

Canonical parts may have to be taken apart once more: the alternatives of a member that turns out
to be a union, and the element type of an array. Below, `canon` is the canonical form of the parts
of a name, and `again` that of names put together from canonical parts. -/

/-- The alternatives a canonical member stands for: a plain union is flattened, while a signature
with several return types is one member. -/
def members (again : List Char → Option (List Char)) (name : List Char) : List (List Char) :=
  match splitTop isBar name with
  | first :: second :: rest =>
    if Text.containsRun [')', ':'] first then [name]
    else (first :: second :: rest).filterMap again
  | _ => [name]

/-- Each member of a separated list in canonical form, without empty ones and without repeats. -/
def unionWith (canon again : List Char → Option (List Char)) (sep : Char → Bool)
    (list : List Char) : List (List Char) :=
  ((splitTop sep list).filterMap canon).foldl (fun out n => addNew out (members again n)) []

/-- One parameter of a signature in canonical form; a parameter without a type takes any object. -/
def canonicalParam (canon again : List Char → Option (List Char)) (param : List Char) :
    List Char :=
  match unionWith canon again isBar param with
  | [] => object
  | alternatives => union alternatives

/-- The parameters of a signature in canonical form. -/
def canonicalParams (canon again : List Char → Option (List Char)) (inner : List Char) :
    List (List Char) :=
  if inner.isEmpty then [] else (splitTop isComma inner).map (canonicalParam canon again)

/-- The canonical form of a name from that of its parts. -/
def canonicalStep (canon again : List Char → Option (List Char)) (raw : List Char) :
    Option (List Char) :=
  match shape raw with
  | .nothing => none
  | .group inner => canon inner
  -- the element may still hold arguments separated by commas
  | .array element => (canon element).bind fun e => again (arrayOf e)
  | .plain name => alias? name
  | .kept name _ => some name
  | .generic base inner =>
    match unionWith canon again isBarOrComma inner with
    | [] => some base
    | args => some (generic base (union args))
  | .callable base inner returns =>
    let returns := returns.elim [] (unionWith canon again isBarOrComma)
    some (signature base (canonicalParams canon again inner) returns)

/-- The canonical form of a name without blanks, descending into at most `depth` parts. -/
def canonicalWithin (again : List Char → Option (List Char)) :
    (depth : Nat) → List Char → Option (List Char)
  | 0, _ => none
  | depth + 1, raw => canonicalStep (canonicalWithin again depth) again raw

/-- The canonical form of a name without blanks, taking canonical parts apart at most `n` times. -/
def canonicalRounds : (n : Nat) → List Char → Option (List Char)
  | 0, _ => none
  | n + 1, cs => canonicalWithin (canonicalRounds n) (cs.length + 1) cs

/-- The characters at which a canonical part may be taken apart, or that ask for a part to be put
together: the separators and the opening bracket of the array suffix. -/
def isJoint (c : Char) : Bool := isBarOrComma c || c == '['

/-- The canonical form of a name without blanks. A part that is taken apart once more has lost one
of the name's joints, and a part of a name is shorter, so neither bound is ever reached. -/
def canonicalize? (cs : List Char) : Option (List Char) :=
  canonicalRounds (cs.countP isJoint + 1) cs

/-- The characters of a name that count. -/
def compact (cs : List Char) : List Char := cs.filter (!Text.isBlank ·)

/-- The members of a separated list in canonical form, for a list without blanks. -/
def canonicalUnion (sep : Char → Bool) (list : List Char) : List (List Char) :=
  unionWith canonicalize? canonicalize? sep list

/-- Remove the parentheses around a whole name, at most `n` pairs. -/
def unwrapGroups : (n : Nat) → List Char → List Char
  | 0, cs => cs
  | n + 1, cs =>
    match unwrapGroup? cs with
    | some inner => unwrapGroups n inner
    | none => cs

/-- The return types that a function's name carries, in either encoding. -/
def returnTypes (name : List Char) : List (List Char) :=
  match genericArgument? function name with
  | some returns => canonicalUnion isBar returns
  | none =>
    match Text.dropPrefix? function name with
    | some ('(' :: cs) =>
      match splitAtClose '(' ')' cs with
      | some (_, ':' :: returns) => canonicalUnion isBar returns
      | _ => []
    | _ => []

end ScriptTypes.TypeName

namespace ScriptTypes

/-- The canonical form of a type name, `none` if it denotes no type. -/
def canonicalTypeName? (raw : String) : Option String :=
  (TypeName.canonicalize? (TypeName.compact raw.toList)).map String.ofList

/-- The members of a list such as `(String|Number)` in canonical form. -/
def splitTypeUnion (list : String) : List String :=
  let cs := TypeName.compact list.toList
  let inner := TypeName.unwrapGroups cs.length cs
  (TypeName.canonicalUnion TypeName.isBarOrComma inner).map String.ofList

end ScriptTypes
