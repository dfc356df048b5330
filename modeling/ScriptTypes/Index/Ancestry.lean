import ScriptTypes.Index.Basic

/-!
# Ancestors and inherited members

The ancestors of a type are found level by level: its parents, then their parents, and so on, each
name once. Parents may form cycles, and a parent need not be declared. A level that leads to a
further one holds a declared type that was not met before, so there are at most as many levels as
there are declared types, and one more.
-/

namespace ScriptTypes.Index

/-- The new names of a level, each once. -/
def fresh (seen level : List TypeName) : List TypeName :=
  (level.filter fun t => !seen.contains t).eraseDups

/-- The names that are not in `seen`, of a level and those above it. There is no answer if the `n`th
level still holds new names. -/
def levels (parents : TypeName → List TypeName) : (n : Nat) → (seen level : List TypeName) →
    Option (List TypeName)
  | 0, _, _ => none
  | n + 1, seen, level =>
    match fresh seen level with
    | [] => some []
    | new => (levels parents n (seen ++ new) (new.flatMap parents)).map (new ++ ·)

/-- The proper ancestors of a type, nearest first. -/
def ancestors (index : Index) (type : TypeName) : List TypeName :=
  (levels index.parents (index.types.length + 1) [type] (index.parents type)).getD []

/-- The members of a name on the nearest type, from a type upwards, that declares any. -/
def nearestMembers (index : Index) (type : TypeName) (member : String) : List Element :=
  ((type :: index.ancestors type).map fun t => index.ownMembers t member).find?
    (fun es => !es.isEmpty) |>.getD []

/-- The first list that is not empty. -/
def orElse (a b : List Element) : List Element := if a.isEmpty then b else a

/-- The members of a name that a type shows: its own and inherited ones; else those of its base
name, so that `Array<String>` shows what `Array` does; else those that every object has. -/
def members (index : Index) (type : TypeName) (member : String) : List Element :=
  orElse (index.nearestMembers type member)
    (orElse (index.nearestMembers (TypeName.baseType type) member)
      (index.ownMembers TypeName.objectType member))

end ScriptTypes.Index
