import ScriptTypes.Index.Ancestry

/-!
# Generated types

Object literals and symbols with assigned properties get types of their own, which are generated
when inference meets them and registered under their names. A generated type has parents, which
may be generated too, and members in the order of their registration.
-/

namespace ScriptTypes

structure GeneratedType where
  name : TypeName
  parents : List TypeName
  members : Entries Element := []

/-- The generated types, under their names. -/
abbrev Registry := Entries GeneratedType

namespace Registry

/-- Register a type that has no members yet. -/
def register (r : Registry) (name : TypeName) (parents : List TypeName) : Registry :=
  r ++ [(name, ⟨name, parents, []⟩)]

/-- Add a member to a registered type. -/
def addMember (r : Registry) (type : TypeName) (member : String) (e : Element) : Registry :=
  r.map fun (n, t) =>
    if n = type then (n, { t with members := Entries.upsert member (fun _ => e) t.members })
    else (n, t)

/-- The generated types in the order of their names. -/
def sorted (r : Registry) : List GeneratedType :=
  (r.map Prod.snd).mergeSort fun a b => a.name ≤ b.name

/-- The elements found on the first of the given types that shows any, together with the types
looked at. `look` looks at one type. -/
def firstFound (look : List TypeName → TypeName → Option (List Element × List TypeName)) :
    (seen types : List TypeName) → Option (List Element × List TypeName)
  | seen, [] => some ([], seen)
  | seen, t :: ts =>
    match look seen t with
    | none => none
    | some ([], seen) => firstFound look seen ts
    | some found => some found

/-- The members of a name on a type: those of a generated type, then of its parents one after the
other; those of any other type from the index. A type is looked at once. There is no answer if
generated types are nested more than `depth` deep. -/
def lookupWithin (r : Registry) (index : Index) (member : String) :
    (depth : Nat) → (seen : List TypeName) → (type : TypeName) →
      Option (List Element × List TypeName)
  | 0, _, _ => none
  | depth + 1, seen, type =>
    if seen.contains type then some ([], seen)
    else
      let seen := type :: seen
      match Entries.get? type r with
      | none => some (index.members type member, seen)
      | some t =>
        match Entries.get? member t.members with
        | some e => some ([e], seen)
        | none => firstFound (lookupWithin r index member depth) seen t.parents

/-- The members of a name on a type. Each step from a generated type to a parent meets another
generated type, except for the last one. -/
def lookup (r : Registry) (index : Index) (type : TypeName) (member : String) : List Element :=
  ((lookupWithin r index member (r.length + 1) [] type).map Prod.fst).getD []

/-- Does any of the types have a member of this name? -/
def hasMember (r : Registry) (index : Index) (types : List TypeName) (member : String) : Bool :=
  types.any fun t => !(r.lookup index t member).isEmpty

def parents (r : Registry) (type : TypeName) : List TypeName :=
  match Entries.get? type r with
  | some t => t.parents
  | none => []

/-- The ancestors of the generated type `type`, following the parents of the first one pending
before the others: `found` so far, with `pending` to visit. There is no answer after `n` visits. -/
def ancestorsWithin (r : Registry) (type : TypeName) :
    (n : Nat) → (found pending : List TypeName) → Option (List TypeName)
  | 0, _, _ => none
  | _ + 1, found, [] => some found
  | n + 1, found, p :: pending =>
    if p = type ∨ found.contains p then ancestorsWithin r type n found pending
    else ancestorsWithin r type n (found ++ [p]) (r.parents p ++ pending)

/-- The number of parents of all types. -/
def parentCount (r : Registry) : Nat := (r.flatMap fun (_, t) => t.parents).length

/-- The ancestors of a generated type. The parents of every type are visited at most once. -/
def ancestors (r : Registry) (type : TypeName) : List TypeName :=
  (ancestorsWithin r type (r.parentCount + 1) [] (r.parents type)).getD []

end Registry

end ScriptTypes
