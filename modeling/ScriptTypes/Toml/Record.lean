import ScriptTypes.Toml.Value

/-!
# Records in TOML

Readers of a document expect records: values with named fields. A record is written as a table, or
as an array with its fields in order. Each reader refuses values of any other kind.
-/

namespace ScriptTypes.Toml

namespace Value

def string? : Value → Option String
  | .string text => some text
  | _ => none

/-- The items of an array, each of them read by `item`. -/
def list? {α : Type} (item : Value → Option α) : Value → Option (List α)
  | .array _ items => items.mapM item
  | _ => none

def strings? : Value → Option (List String) := list? string?

/-- The key of a moment that is read as a table. -/
def momentKey : String := "$__toml_private_datetime"

/-- The entries of a table of strings, in the order of their keys. A moment reads as a table of
one entry with its text. -/
def stringTable? : Value → Option (List (String × String))
  | .table _ entries => do
    let entries ← entries.mapM fun (k, v) => do return (k, ← v.string?)
    return entries.mergeSort fun a b => a.1 ≤ b.1
  | .moment m => some [(momentKey, m.text)]
  | _ => none

end Value

/-- A value with fields. -/
inductive Record where
  | named (entries : Table)
  | inOrder (items : List Value)

namespace Record

def ofValue? : Value → Option Record
  | .table _ entries => some (.named entries)
  | .array _ items => some (.inOrder items)
  | _ => none

/-- The field of a name, which is at the given position where fields are in order. -/
def get? (r : Record) (name : String) (position : Nat) : Option Value :=
  match r with
  | .named entries => entries.lookup name
  | .inOrder items => items[position]?

/-- A text that has to be there. -/
def string? (r : Record) (name : String) (position : Nat) : Option String :=
  (r.get? name position).bind Value.string?

/-- A list that may be left out. -/
def list? {α : Type} (item : Value → Option α) (r : Record) (name : String) (position : Nat) :
    Option (List α) :=
  match r.get? name position with
  | some v => v.list? item
  | none => some []

/-- Texts that may be left out. -/
def strings? : Record → String → Nat → Option (List String) := list? Value.string?

/-- A list that may be missing, which is not the same as empty. Where fields are in order it has
to be there. -/
def optionalList? {α : Type} (item : Value → Option α) (r : Record) (name : String)
    (position : Nat) : Option (Option (List α)) :=
  match r, r.get? name position with
  | _, some v => some <$> v.list? item
  | .named _, none => some none
  | .inOrder _, none => none

end Record

end ScriptTypes.Toml
