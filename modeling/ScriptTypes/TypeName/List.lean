import ScriptTypes.TypeName.Named

/-!
# Lists of possible types

The result of inference is a list of canonical type names in the order in which they were found,
each once.
-/

namespace ScriptTypes

structure TypeList where
  /-- The names in the order of their first arrival. -/
  names : List TypeName := []
  deriving DecidableEq, Repr

namespace TypeList

def empty : TypeList := {}

def contains (list : TypeList) (name : TypeName) : Bool := list.names.contains name

def isEmpty (list : TypeList) : Bool := list.names.isEmpty

/-- The list after one more raw name. A name without a canonical form, or one that is in the list
already, changes nothing. -/
def add (list : TypeList) (raw : String) : TypeList :=
  match canonicalTypeName? raw with
  | none => list
  | some name => if list.contains name then list else ⟨list.names ++ [name]⟩

/-- Does the list grow when the raw name is added? -/
def grows (list : TypeList) (raw : String) : Bool :=
  match canonicalTypeName? raw with
  | none => false
  | some name => !list.contains name

def extend (list : TypeList) (raws : List String) : TypeList := raws.foldl add list

def ofList (raws : List String) : TypeList := empty.extend raws

theorem add_eq_self_of_grows_eq_false {list : TypeList} {raw : String}
    (h : list.grows raw = false) : list.add raw = list := by
  unfold grows at h
  unfold add
  split <;> simp_all

end TypeList

end ScriptTypes
