import ScriptTypes.Toml.Reader

/-!
# TOML documents

A document is a list of entries, followed by sections with a header and entries of their own. A
header leads to a table, or adds one to an array; a dotted key leads through tables as well. No
table may be written down twice.
-/

namespace ScriptTypes.Toml

open Reader

namespace Table

def get? (t : Table) (key : String) : Option Value := t.lookup key

/-- Replace the value of a key, or add one at the end. -/
def set (t : Table) (key : String) (v : Value) : Table :=
  if t.any (·.1 == key) then t.map fun e => if e.1 == key then (key, v) else e
  else t ++ [(key, v)]

/-- Add an entry under a dotted key. The last table on the way has to be written by dotted keys,
and none on the way may have a header of its own. -/
def assign? (t : Table) (v : Value) : List String → Option Table
  | [] => none
  | [key] => if (get? t key).isSome then none else some (set t key v)
  | key :: rest => do
    match get? t key with
    | none => return set t key (.table .dotted (← assign? [] v rest))
    | some (.table kind inner) =>
      if kind = .dotted ∨ (kind = .passed ∧ 1 < rest.length) then
        return set t key (.table kind (← assign? inner v rest))
      else failure
    | some (.array true items) =>
      match items.getLast? with
      | some (.table kind inner) =>
        if 1 < rest.length then
          let last := Value.table kind (← assign? inner v rest)
          return set t key (.array true (items.dropLast ++ [last]))
        else failure
      | _ => failure
    | some _ => failure

/-- Change the value that a header leads to. Tables on the way that are not there yet are added;
of an array of tables the last one is meant. -/
def update? (t : Table) (change : Option Value → Option Value) : List String → Option Table
  | [] => none
  | [key] => do return set t key (← change (get? t key))
  | key :: rest => do
    match get? t key with
    | none => return set t key (.table .passed (← update? [] change rest))
    | some (.table .inline _) => failure
    | some (.table kind inner) => return set t key (.table kind (← update? inner change rest))
    | some (.array true items) =>
      match items.getLast? with
      | some (.table kind inner) =>
        let last := Value.table kind (← update? inner change rest)
        return set t key (.array true (items.dropLast ++ [last]))
      | _ => failure
    | some _ => failure

/-- Add entries one after the other. -/
def assignAll? (t : Table) : List (List String × Value) → Option Table
  | [] => some t
  | (key, v) :: rest => do assignAll? (← assign? t v key) rest

end Table

/-! ### Values with parts -/

/-- A value that is nested at most `depth` deep. -/
def value : (depth : Nat) → Reader Value
  | 0 => scalar
  | depth + 1 => scalar <|> array (value depth) <|> inlineTable (value depth)
where
  array (item : Reader Value) : Reader Value := do
    word "["
    let spaced : Reader Value := do gap; let v ← item; gap; return v
    let items ← optionally do
      let items ← separated spaced (word ",")
      discard (optionally (word ","))
      return items
    gap
    word "]"
    return .array false (items.getD [])
  inlineTable (item : Reader Value) : Reader Value := do
    word "\x7b"
    let entry : Reader (List String × Value) := do
      let k ← key
      word "="
      blanks
      let v ← item
      blanks
      return (k, v)
    let entries ← optionally (separated entry (word ","))
    blanks
    word "\x7d"
    match Table.assignAll? [] (entries.getD []) with
    | some t => return .table .inline t
    | none => failure

/-- A line with an entry. -/
def entryLine : Reader (List String × Value) := do
  let k ← key
  word "="
  blanks
  let v ← value (nestingLimit - 1)
  lineEnd
  return (k, v)

/-! ### Sections -/

/-- What a header says about its section. -/
structure Header where
  /-- Does the section add a table to an array? -/
  adds : Bool
  key : List String

structure Section where
  header : Header
  entries : List (List String × Value)

/-- A line with a header. -/
def headerLine : Reader Header := do
  let h ← (do word "[["; let k ← key; word "]]"; return Header.mk true k)
    <|> (do word "["; let k ← key; word "]"; return Header.mk false k)
  lineEnd
  return h

/-- Lines without entries. -/
def emptyLines : Reader Unit := do
  blanks
  discard (many ((do comment; newline <|> endOfText; blanks) <|> (do newline; blanks)))

def entryLines : Reader (List (List String × Value)) := do
  emptyLines
  many (do let e ← entryLine; emptyLines; return e)

def sections : Reader (List (List String × Value) × List Section) := do
  discard (optionally (one (· == '\ufeff')))
  let top ← entryLines
  let rest ← many do return Section.mk (← headerLine) (← entryLines)
  endOfText
  return (top, rest)

/-- The value that a section makes of the one its header leads to. -/
def Section.change (s : Section) (old : Option Value) : Option Value := do
  match s.header.adds, old with
  | false, none => return .table .header (← Table.assignAll? [] s.entries)
  | false, some (.table .passed t) => return .table .header (← Table.assignAll? t s.entries)
  | true, none => return .array true [.table .header (← Table.assignAll? [] s.entries)]
  | true, some (.array true items) =>
    return .array true (items ++ [.table .header (← Table.assignAll? [] s.entries)])
  | _, _ => failure

/-- The table of a document, if its text is one. -/
def parse? (text : String) : Option Table := do
  let ((top, rest), _) ← StateT.run sections text.toList
  let t ← Table.assignAll? [] top
  rest.foldlM (fun t s => t.update? s.change s.header.key) t

end ScriptTypes.Toml
