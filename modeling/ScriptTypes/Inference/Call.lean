import ScriptTypes.Inference.Setting

/-!
# What inference calls

The types of a node depend on those of other nodes and on what its names and object literals own.
An owner has values and properties: it is an object literal, a symbol, or a property of an owner.
`Setting.callees` lists all that the inference of a node or of an owner can turn to.

A symbol may depend on itself. Inference therefore knows which symbols it is in the middle of, and
does not enter such a symbol again. Entering a symbol leaves fewer that can be entered; every other
call descends, to a node below or to the collection of a property.
-/

namespace ScriptTypes

open Script (NodeId Form)

/-- What has values and properties. -/
inductive Owner where
  | literal (n : NodeId)
  | symbol (key : Symbol)
  | property (of : Owner) (name : String)
  deriving DecidableEq, Repr

namespace Owner

/-- The values and properties of an owner. -/
def collection (s : Setting) : Owner → Collection
  | literal n => s.module.literalCollection n
  | symbol key => (NameMap.get? key.2 (s.scopes.get key.1).symbols).getD (.named key.2)
  | property o name => (NameMap.get? name (o.collection s).properties).getD (.named name)

def origin (s : Setting) : Owner → Origin
  | literal n => .literal (s.module.range n).start
  | symbol key => .scope (s.scopes.get key.1).range.start
  | property o _ => o.origin s

/-- The name of the type that is generated for an owner. -/
def type (s : Setting) (o : Owner) : TypeName := s.generatedName (o.origin s) (o.collection s).path

def name : Owner → String
  | literal _ => ""
  | symbol key => key.2
  | property _ name => name

/-- The generated type that has an owner as a member. -/
def memberOf (s : Setting) : Owner → TypeName
  | property o _ => o.type s
  | _ => ""

/-- The values that an owner's types come from. A literal has only properties. -/
def values (s : Setting) : Owner → List NodeId
  | literal _ => []
  | o => (o.collection s).values

end Owner

/-- What inference is asked for. -/
inductive Call where
  /-- The types of a node whose names are looked up in a scope. -/
  | node (scope : ScopeId) (n : NodeId)
  /-- What is known about an owner. -/
  | owner (o : Owner)
  deriving DecidableEq, Repr

namespace Call

def Answer : Call → Type
  | node _ _ => List TypeName
  | owner _ => Element

/-- The answer if nothing is known. -/
def unknown : (a : Call) → a.Answer
  | node _ _ => ([] : List TypeName)
  | owner o => ({ name := o.name } : Element)

end Call

namespace Setting

variable (s : Setting)

/-- The nodes whose types decide those of a node, with the scopes in which their names are looked
up. -/
def parts (scope : ScopeId) (n : NodeId) : List (ScopeId × NodeId) :=
  match s.module.form n with
  | .array (first :: _) => [(scope, first)]
  | .function _ _ _ body =>
    let inside := s.scopes.atOffset (s.module.range body).start
    (s.module.returnedNodes n).map fun v => (inside, v)
  | .binary (.arithmetic .add) _ _ => (s.module.addedNodes n).map fun v => (scope, v)
  | .binary (.logical .and) lhs rhs | .binary (.logical .or) lhs rhs => [(scope, lhs), (scope, rhs)]
  | .assign .plain _ rhs => [(scope, rhs)]
  | .assign (.compound .add) lhs rhs => [(scope, lhs), (scope, rhs)]
  | .conditional _ yes no => [(scope, yes), (scope, no)]
  | .construct callee _ | .invoke callee _ => [(scope, callee)]
  | .member object _ | .element object _ => [(scope, object)]
  | .group inner => [(scope, inner)]
  | _ => []

/-- The symbol that a name means in a scope. -/
def symbolNamed? (scope : ScopeId) (name : String) : Option Symbol :=
  (s.scopes.symbol? scope name).map fun (owner, _) => (owner, name)

/-- What owns the values of a node: an object literal itself, or the symbol of an identifier. A
parameter has the types of its documentation instead. -/
def owner? (scope : ScopeId) (n : NodeId) : Option Owner :=
  match s.module.form n with
  | .object (_ :: _) => some (.literal n)
  | .identifier name =>
    if (s.parameterList? n).isSome then none else (s.symbolNamed? scope name).map .symbol
  | _ => none

/-- All that an answer can be made from. -/
def callees : Call → List Call
  | .node scope n =>
    (s.parts scope n).map (fun p => .node p.1 p.2) ++ (s.owner? scope n).toList.map .owner
  | .owner o =>
    ((o.values s).filter fun v => (s.documentedFunction? v).isNone).map
        (fun v => .node (s.scopeOf v) v)
      ++ (o.collection s).properties.map fun p => .owner (.property o p.1)

/-! ### Calls descend -/

/-- What decides the types of a node is below it. -/
theorem below_of_mem_parts {scope : ScopeId} {n : NodeId} {p : ScopeId × NodeId}
    (h : p ∈ s.parts scope n) : s.module.Below p.2 n := by
  unfold parts at h
  split at h
  case h_2 =>
    obtain ⟨v, hv, rfl⟩ := List.mem_map.1 h
    exact s.module.below_of_mem_returnedNodes hv
  case h_3 hform =>
    obtain ⟨v, hv, rfl⟩ := List.mem_map.1 h
    exact s.module.below_of_mem_operands hform hv
  case h_14 => cases h
  all_goals
    rename_i hform
    apply s.module.below_of_form_eq hform
    simp only [List.mem_cons, List.not_mem_nil, or_false] at h
    rcases h with rfl | rfl <;> simp [Form.children]

theorem mem_symbols_of_symbolNamed? {scope : ScopeId} {name : String} {key : Symbol}
    (h : s.symbolNamed? scope name = some key) : key ∈ s.symbols := by
  obtain ⟨⟨owner, c⟩, hc, rfl⟩ := Option.map_eq_some_iff.1 h
  exact s.mem_symbols hc

/-- A node's values belong to the node itself or to a symbol of the module. -/
theorem owner?_cases {scope : ScopeId} {n : NodeId} {o : Owner} (h : s.owner? scope n = some o) :
    (∃ pair pairs, s.module.form n = .object (pair :: pairs) ∧ o = .literal n) ∨
      ∃ key ∈ s.symbols, o = .symbol key := by
  unfold owner? at h
  split at h
  · rename_i hform
    exact .inl ⟨_, _, hform, (Option.some.inj h).symm⟩
  · split at h
    · cases h
    · obtain ⟨key, hkey, rfl⟩ := Option.map_eq_some_iff.1 h
      exact .inr ⟨key, s.mem_symbols_of_symbolNamed? hkey, rfl⟩
  · cases h

/-- Only a symbol of the module has values or properties. -/
theorem mem_symbols_of_callee {key : Symbol} {b : Call}
    (h : b ∈ s.callees (.owner (.symbol key))) : key ∈ s.symbols := by
  obtain ⟨owner, name⟩ := key
  have hsome : NameMap.get? name (s.scopes.get owner).symbols ≠ none := by
    intro hnone
    simp [callees, Owner.values, Owner.collection, hnone, Collection.named, Collection.values,
      Collection.properties] at h
  obtain ⟨c, hc⟩ := Option.ne_none_iff_exists'.1 hsome
  have hmem := NameMap.mem_of_get?_eq_some hc
  simp only [symbols, List.mem_flatMap, List.mem_map, Scopes.ids, List.mem_range]
  exact ⟨owner, s.scopes.lt_of_mem_symbols hmem, (name, c), hmem, rfl⟩

end Setting

end ScriptTypes
