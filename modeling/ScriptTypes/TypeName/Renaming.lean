import ScriptTypes.TypeName.Named

/-!
# Renaming of types

A project may give types other names. The renaming applies to documented parameter types and to
the receiver of a property access.
-/

namespace ScriptTypes

/-- A finite renaming of canonical type names; the entry in front wins. -/
structure TypeRenaming where
  entries : List (TypeName × TypeName) := []
  deriving DecidableEq, Repr

namespace TypeRenaming

def empty : TypeRenaming := {}

def isEmpty (r : TypeRenaming) : Bool := r.entries.isEmpty

/-- Rename `src` to `dst` from now on. Both sides are made canonical, and an entry with a side
that denotes no type is ignored. -/
def insert (r : TypeRenaming) (src dst : String) : TypeRenaming :=
  match canonicalTypeName? src, canonicalTypeName? dst with
  | some s, some d => ⟨(s, d) :: r.entries⟩
  | _, _ => r

/-- The new name of a type; a name without an entry keeps its own. -/
def apply (r : TypeRenaming) (name : TypeName) : TypeName :=
  (r.entries.lookup name).getD name

def ofList (entries : List (String × String)) : TypeRenaming :=
  entries.foldl (fun r (src, dst) => r.insert src dst) empty

@[simp] theorem apply_empty (name : TypeName) : empty.apply name = name := rfl

end TypeRenaming

end ScriptTypes
