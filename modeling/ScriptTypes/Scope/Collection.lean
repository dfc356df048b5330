import ScriptTypes.Scope.NameMap
import ScriptTypes.Script.Module

/-!
# Collections: the values of a name and of its properties

A collection holds every value that a script gives to a name, and in turn a collection for every
property of that name that gets values: `foo = {}; foo.bar = 1` gives `foo` one value and a
property `bar` with one value. Collections are filled one value at a time, each under the list of
property names that leads to it.
-/

namespace ScriptTypes

open Script (Module NodeId)

inductive Collection where
  /-- The dotted path from the owner of the collection, the values in the order of their arrival,
  and the properties. -/
  | mk (path : String) (values : List NodeId) (properties : List (String × Collection))

namespace Collection

def path : Collection → String
  | mk path _ _ => path

def values : Collection → List NodeId
  | mk _ values _ => values

def properties : Collection → NameMap Collection
  | mk _ _ properties => properties

/-- A collection without values. -/
def named (path : String) : Collection := mk path [] []

def hasProperties (c : Collection) : Bool := !c.properties.isEmpty

/-- The path of a property. -/
def propertyPath (path name : String) : String :=
  if path.isEmpty then name else path ++ "." ++ name

/-- Add a value under a list of property names; a value that is there already is not repeated. -/
def add (value : NodeId) : (keys : List String) → Collection → Collection
  | [], mk path values properties =>
    mk path (if values.contains value then values else values ++ [value]) properties
  | key :: keys, mk path values properties =>
    mk path values
      (NameMap.upsert key (fun p? => add value keys (p?.getD (named (propertyPath path key))))
        properties)

/-- The collection under a list of property names. -/
def at? : (keys : List String) → Collection → Option Collection
  | [], c => some c
  | key :: keys, c => (NameMap.get? key c.properties).bind (at? keys)

theorem sizeOf_lt_of_mem_properties {c : Collection} {p : String × Collection}
    (h : p ∈ c.properties) : sizeOf p.2 < sizeOf c := by
  obtain ⟨path, values, properties⟩ := c
  have hlt := List.sizeOf_lt_of_mem (show p ∈ properties from h)
  obtain ⟨name, sub⟩ := p
  simp only [Collection.mk.sizeOf_spec, Prod.mk.sizeOf_spec] at hlt ⊢
  omega

/-- All values of a collection, those of its properties included. -/
def all (c : Collection) : List NodeId :=
  c.values ++ c.properties.attach.flatMap fun p => all p.1.2
termination_by sizeOf c
decreasing_by exact sizeOf_lt_of_mem_properties p.2

theorem mem_all {c : Collection} {v : NodeId} :
    v ∈ c.all ↔ v ∈ c.values ∨ ∃ p ∈ c.properties, v ∈ p.2.all := by
  rw [all]
  simp

@[simp] theorem all_named (path : String) : (named path).all = [] := by
  rw [all]
  rfl

/-- A value that is added under no name stays out of the properties. -/
theorem mem_add {x v : NodeId} {keys : List String} {c : Collection} :
    (v ∈ (c.add x keys).all → v ∈ c.all ∨ v = x) ∧
      ∀ p ∈ (c.add x keys).properties, v ∈ p.2.all →
        (∃ q ∈ c.properties, v ∈ q.2.all) ∨ keys ≠ [] ∧ v = x := by
  induction keys generalizing c with
  | nil =>
    obtain ⟨path, values, properties⟩ := c
    refine ⟨fun h => ?_, fun p hp hv => .inl ⟨p, hp, hv⟩⟩
    rcases mem_all.1 h with h | ⟨p, hp, hv⟩
    · simp only [add, Collection.values] at h
      split at h
      · exact .inl (mem_all.2 (.inl h))
      · rcases List.mem_append.1 h with h | h
        · exact .inl (mem_all.2 (.inl h))
        · exact .inr (List.mem_singleton.1 h)
    · exact .inl (mem_all.2 (.inr ⟨p, hp, hv⟩))
  | cons key keys ih =>
    obtain ⟨path, values, properties⟩ := c
    have hproperties : ∀ p ∈ ((mk path values properties).add x (key :: keys)).properties,
        v ∈ p.2.all → (∃ q ∈ properties, v ∈ q.2.all) ∨ key :: keys ≠ [] ∧ v = x := by
      intro p hp hv
      rcases NameMap.mem_upsert hp with hp | ⟨old, hold, rfl⟩
      · exact .inl ⟨p, hp, hv⟩
      · rcases ih.1 hv with hv | rfl
        · cases old with
          | none => simp at hv
          | some c => exact .inl ⟨_, hold c rfl, hv⟩
        · exact .inr ⟨by simp, rfl⟩
    refine ⟨fun h => ?_, hproperties⟩
    rcases mem_all.1 h with h | ⟨p, hp, hv⟩
    · exact .inl (mem_all.2 (.inl h))
    · exact (hproperties p hp hv).imp (fun hq => mem_all.2 (.inr hq)) And.right

end Collection

/-- A value together with the property names that lead to it. -/
structure KeyedValue where
  keys : List String
  value : NodeId
  deriving DecidableEq, Repr

namespace KeyedValue

/-- The collection of a list of values, in their order. -/
def collect (path : String) (kvs : List KeyedValue) : Collection :=
  kvs.foldl (fun c kv => c.add kv.value kv.keys) (.named path)

/-- The values of properties have names that lead to them. -/
theorem exists_of_mem_collect {path : String} {kvs : List KeyedValue} {v : NodeId}
    {p : String × Collection} (hp : p ∈ (collect path kvs).properties) (hv : v ∈ p.2.all) :
    ∃ kv ∈ kvs, kv.keys ≠ [] ∧ kv.value = v := by
  have hfold : ∀ (kvs : List KeyedValue) (c : Collection),
      ∀ p ∈ (kvs.foldl (fun c kv => c.add kv.value kv.keys) c).properties, v ∈ p.2.all →
        (∃ q ∈ c.properties, v ∈ q.2.all) ∨ ∃ kv ∈ kvs, kv.keys ≠ [] ∧ kv.value = v := by
    intro kvs
    induction kvs with
    | nil => exact fun c p hp hv => .inl ⟨p, hp, hv⟩
    | cons kv kvs ih =>
      intro c p hp hv
      rcases ih _ p hp hv with ⟨q, hq, hv⟩ | ⟨kv', hkv', h⟩
      · rcases Collection.mem_add.2 q hq hv with hq | ⟨hkeys, rfl⟩
        · exact .inl hq
        · exact .inr ⟨kv, by simp, hkeys, rfl⟩
      · exact .inr ⟨kv', by simp [hkv'], h⟩
  rcases hfold kvs (.named path) p hp hv with ⟨q, hq, -⟩ | h
  · cases hq
  · exact h

end KeyedValue

namespace Script.Module

/-- A key and the node of its value, for a pair. -/
def pair? (m : Module) (n : NodeId) : Option (String × NodeId) :=
  match m.form n with
  | .pair key value => some (key, value)
  | _ => none

theorem below_of_pair? (m : Module) {n v : NodeId} {key : String} (h : m.pair? n = some (key, v)) :
    m.Below v n := by
  unfold pair? at h
  split at h
  · rename_i hform
    cases h
    exact m.below_of_form_eq hform (by simp [Form.children])
  · cases h

/-- The pairs of an object literal; other nodes have none. -/
def pairs (m : Module) (n : NodeId) : List NodeId :=
  match m.form n with
  | .object items => items
  | _ => []

theorem below_of_mem_pairs (m : Module) {n p : NodeId} (h : p ∈ m.pairs n) : m.Below p n := by
  unfold pairs at h
  split at h
  · rename_i hform
    exact m.below_of_form_eq hform (by simpa [Form.children] using h)
  · cases h

/-- The values of an object literal with their keys, literals inside it included: the node itself,
then what its pairs hold. -/
def literalValues (m : Module) (keys : List String) (n : NodeId) : List KeyedValue :=
  ⟨keys, n⟩ :: (m.pairs n).attach.flatMap fun p =>
    match _h : m.pair? p.1 with
    | some (key, value) => literalValues m (keys ++ [key]) value
    | none => []
termination_by n
decreasing_by exact ((m.below_of_pair? _h).trans (m.below_of_mem_pairs p.2)).lt

/-- The values of an object literal are the literal itself and nodes below it. -/
theorem below_of_mem_literalValues (m : Module) {keys : List String} {n : NodeId} {kv : KeyedValue}
    (h : kv ∈ m.literalValues keys n) : kv = ⟨keys, n⟩ ∨ m.Below kv.value n := by
  induction n using Nat.strongRecOn generalizing keys with
  | ind n ih =>
    unfold literalValues at h
    rcases List.mem_cons.1 h with rfl | h
    · exact .inl rfl
    · obtain ⟨p, -, hp⟩ := List.mem_flatMap.1 h
      split at hp
      · rename_i key value hpair
        have hvalue := (m.below_of_pair? hpair).trans (m.below_of_mem_pairs p.2)
        rcases ih value hvalue.lt hp with rfl | hkv
        · exact .inr hvalue
        · exact .inr (hkv.trans hvalue)
      · cases hp

/-- The collection of an object literal. -/
def literalCollection (m : Module) (n : NodeId) : Collection :=
  KeyedValue.collect "" (m.literalValues [] n)

/-- The values of a literal's properties are below the literal. -/
theorem below_of_mem_literalCollection (m : Module) {n v : NodeId} {p : String × Collection}
    (hp : p ∈ (m.literalCollection n).properties) (hv : v ∈ p.2.all) : m.Below v n := by
  obtain ⟨kv, hkv, hkeys, rfl⟩ := KeyedValue.exists_of_mem_collect hp hv
  rcases m.below_of_mem_literalValues hkv with rfl | hbelow
  · exact absurd rfl hkeys
  · exact hbelow

end Script.Module

end ScriptTypes
